import AppendLowering.Toml.Text

/-!
# Reading TOML

A document is a sequence of lines: entries, headers, comments and empty lines.
Values in brackets may go on over several lines; values in braces may not.
-/

namespace AppendLowering.Toml

variable {α : Type}

/-- Reads something at the start of a text and returns what follows it. -/
abbrev Reader (α : Type) := List Char → Option (α × List Char)

/-- Reads as long as something is found. -/
def many (read : Reader α) (chars : List Char) : List α × List Char :=
  match read chars with
  | some (a, rest) =>
      if rest.length < chars.length then
        let (found, rest) := many read rest
        (a :: found, rest)
      else ([], chars)
  | none => ([], chars)
termination_by chars.length

/-- Arrays, braces and dotted keys can be nested less deep than this. -/
def nestingLimit : Nat := 80

/-- The text with single line feeds for line ends; a carriage return alone is not text. -/
def normalize : List Char → Option (List Char)
  | [] => some []
  | '\r' :: '\n' :: rest => (normalize rest).map ('\n' :: ·)
  | c :: rest => if c = '\r' then none else (normalize rest).map (c :: ·)

def skipBlanks (chars : List Char) : List Char := chars.dropWhile isBlank

/-- Skips a comment, if there is one, up to the end of its line. -/
def skipComment? : List Char → Option (List Char)
  | '#' :: rest =>
      if (rest.takeWhile (· ≠ '\n')).all isLineChar then some (rest.dropWhile (· ≠ '\n')) else none
  | chars => some chars

/-- Skips blanks, a comment and the line feed at the end of a line. -/
def lineEnd? (chars : List Char) : Option (List Char) := do
  match ← skipComment? (skipBlanks chars) with
  | [] => some []
  | '\n' :: rest => some rest
  | _ => none

/-- Skips blanks, line feeds and comments. -/
def skipFiller? (chars : List Char) : Option (List Char) :=
  let line : Reader Unit := fun chars =>
    match chars with
    | c :: rest =>
        if isBlank c ∨ c = '\n' then some ((), rest)
        else if c = '#' then (skipComment? chars).map fun rest => ((), rest)
        else none
    | [] => none
  let rest := (many line chars).2
  if rest.head? = some '#' then none else some rest

/-- A bare or quoted key, with the blanks around it. -/
def simpleKey? (chars : List Char) : Option (String × List Char) := do
  let isBare (c : Char) : Bool := c.isAlphanum || c == '_' || c == '-'
  let chars := skipBlanks chars
  match lineText? chars with
  | some (key, rest) => return (key, skipBlanks rest)
  | none =>
      let key := chars.takeWhile isBare
      if key.isEmpty then none
      return (String.ofList key, skipBlanks (chars.dropWhile isBare))

/-- A dotted key: the tables on its way, and its last part. -/
def key? (chars : List Char) : Option ((List String × String) × List Char) := do
  let next : Reader String := fun chars => do simpleKey? (← expect? '.' chars)
  let (first, rest) ← simpleKey? chars
  let (others, rest) := many next rest
  let keys := first :: others
  if nestingLimit ≤ keys.length then none
  return ((keys.dropLast, keys.getLastD first), rest)

/-- A key and the value that `value?` reads after it. -/
def entry? (value? : Reader Toml) (chars : List Char) :
    Option ((List String × String × Toml) × List Char) := do
  let ((path, key), rest) ← key? chars
  let (value, rest) ← value? (skipBlanks (← expect? '=' rest))
  return ((path, key, value), rest)

/-- The elements of a list, the opening bracket being read already. -/
def list? (value? : Reader Toml) (chars : List Char) : Option (Toml × List Char) := do
  let element : Reader Toml := fun chars => do
    let (value, rest) ← value? (← skipFiller? chars)
    return (value, ← skipFiller? rest)
  match element chars with
  | none => return (.list [], ← expect? ']' (← skipFiller? chars))
  | some (first, rest) =>
      let next : Reader Toml := fun chars => do element (← expect? ',' chars)
      let (others, rest) := many next rest
      let rest := (expect? ',' rest).getD rest
      return (.list (first :: others), ← expect? ']' (← skipFiller? rest))

/-- The entries of a table in braces, the opening brace being read already. -/
def inlineTable? (value? : Reader Toml) (chars : List Char) : Option (Toml × List Char) := do
  let entry : Reader (List String × String × Toml) := fun chars => do
    let (found, rest) ← entry? value? chars
    return (found, skipBlanks rest)
  match expect? '\x7d' (skipBlanks chars) with
  | some rest => return (.table .inline [], rest)
  | none =>
      let (first, rest) ← entry chars
      let (others, rest) := many (fun chars => do entry (← expect? ',' chars)) rest
      let table ← (first :: others).foldlM
        (fun (table : Table) found => table.insert found.1 found.2.1 found.2.2)
        { origin := .inline, entries := [] }
      return (.table .inline table.entries, ← expect? '\x7d' rest)

/-- Reads a value; lists and tables in it can be nested `depth` deep. -/
def value? (depth : Nat) (chars : List Char) : Option (Toml × List Char) :=
  match depth, chars with
  | 0, '[' :: _ => none
  | 0, '\x7b' :: _ => none
  | depth + 1, '[' :: rest => list? (value? depth) rest
  | depth + 1, '\x7b' :: rest => inlineTable? (value? depth) rest
  | _, chars =>
      match chars with
      | c :: _ =>
          if c = '\x22' ∨ c = '\x27' then (text? chars).map fun found => (.text found.1, found.2)
          else scalar? chars
      | [] => none

/-- A line of a document. -/
inductive DocumentLine where
  | empty
  | entry (path : List String) (key : String) (value : Toml)
  | header (path : List String) (key : String)
  | elementHeader (path : List String) (key : String)

/-- Reads a line. -/
def line? (chars : List Char) : Option (DocumentLine × List Char) := do
  match skipBlanks chars with
  | [] => return (.empty, [])
  | '\n' :: rest => return (.empty, rest)
  | '#' :: rest => return (.empty, ← lineEnd? ('#' :: rest))
  | '[' :: '[' :: rest => do
      let ((path, key), rest) ← key? rest
      return (.elementHeader path key, ← lineEnd? (← expect? ']' (← expect? ']' rest)))
  | '[' :: rest => do
      let ((path, key), rest) ← key? rest
      return (.header path key, ← lineEnd? (← expect? ']' rest))
  | chars => do
      let ((path, key, value), rest) ← entry? (value? (nestingLimit - 1)) chars
      return (.entry path key value, ← lineEnd? rest)

/-- The table of a document and the path of the header that the next entries belong to. -/
structure Document where
  root : Table
  current : List String

def Document.add (document : Document) : DocumentLine → Option Document
  | .empty => some document
  | .entry path key value => do
      let root ← document.root.update false (fun table => table.insert path key value)
        document.current
      return { document with root }
  | .header path key => do
      return { root := ← document.root.openTable path key, current := path ++ [key] }
  | .elementHeader path key => do
      return { root := ← document.root.openElement path key, current := path ++ [key] }

/-- The entries of a document. -/
def parse? (text : String) : Option Entries := do
  let chars ← normalize (match text.toList with
    | '\ufeff' :: rest => rest
    | chars => chars)
  let (lines, rest) := many line? chars
  if !rest.isEmpty then none
  let root : Table := { origin := .header, entries := [] }
  let document ← lines.foldlM Document.add { root, current := [] }
  return document.root.entries

end AppendLowering.Toml
