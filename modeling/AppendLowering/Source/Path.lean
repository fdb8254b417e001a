/-!
# Paths of source files

Two spellings name the same file when they have the same components. Repeated
and trailing separators do not count, nor does a dot, unless the path begins
with it.
-/

namespace AppendLowering

namespace Path

/-- One step of a path. -/
inductive Component where
  | root
  | here
  | up
  | entry (name : List Char)
  deriving DecidableEq, Repr

/-- The pieces between separators, the piece `piece` being already begun. -/
def piecesFrom (piece : List Char) : List Char → List (List Char)
  | [] => [piece]
  | c :: rest =>
      if c = '/' then piece :: piecesFrom [] rest else piecesFrom (piece ++ [c]) rest

def pieces (path : String) : List (List Char) := piecesFrom [] path.toList

/-- The component of a piece that is not the first of its path. -/
def ofPiece (piece : List Char) : Option Component :=
  if piece = [] ∨ piece = ['.'] then none
  else if piece = ['.', '.'] then some .up
  else some (.entry piece)

/-- The components of a path. An empty first piece stands before a leading separator. -/
def components (path : String) : List Component :=
  match pieces path with
  | [] => []
  | first :: rest =>
      let start : Option Component :=
        if first = [] then (if rest.isEmpty then none else some .root)
        else if first = ['.'] then some .here
        else ofPiece first
      start.toList ++ rest.filterMap ofPiece

/-- Whether two spellings name the same file. -/
def same (a b : String) : Bool := components a == components b

end Path

end AppendLowering
