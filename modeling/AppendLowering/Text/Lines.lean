/-!
# Lines of a text

A line ends at a line feed, and a carriage return right before it belongs to
the line end. A text that ends in a line feed has no empty last line.
-/

namespace AppendLowering.Text

/-- A line without the carriage return of its line end. -/
def dropCarriageReturn (line : List Char) : List Char :=
  if line.getLast? = some '\r' then line.dropLast else line

/-- The lines of a text whose current line begins with `line`. -/
def linesFrom (line : List Char) : List Char → List (List Char)
  | [] => if line.isEmpty then [] else [line]
  | c :: rest =>
      if c = '\n' then dropCarriageReturn line :: linesFrom [] rest
      else linesFrom (line ++ [c]) rest

def lines (text : List Char) : List (List Char) := linesFrom [] text

end AppendLowering.Text
