import AppendLowering.Toml.Scalar

/-!
# Strings in TOML

Strings stand in double quotes, where a backslash escapes, or in single quotes,
where nothing does. Three quotes begin a string of several lines, whose first
line feed does not count and which may end in up to two quotes of its own.
-/

namespace AppendLowering.Toml

def isBlank (c : Char) : Bool := c == ' ' || c == '\t'

/-- Whether a character may stand in a line: all but the control characters, tabs apart. -/
def isLineChar (c : Char) : Bool := c == '\t' || (0x20 ≤ c.toNat && c.toNat ≠ 0x7f)

/-- The character with the given code in base sixteen. -/
def unicodeChar? (digits : List Char) : Option Char := do
  let value ← Text.number? 16 digits
  if value.isValidChar then some (Char.ofNat value) else none

/-- The character of an escape, the backslash being read already, and what follows. -/
def escape? : List Char → Option (Char × List Char)
  | 'b' :: rest => some ('\x08', rest)
  | 't' :: rest => some ('\t', rest)
  | 'n' :: rest => some ('\n', rest)
  | 'f' :: rest => some ('\x0c', rest)
  | 'r' :: rest => some ('\r', rest)
  | '\x22' :: rest => some ('\x22', rest)
  | '\\' :: rest => some ('\\', rest)
  | 'u' :: rest =>
      if rest.length < 4 then none
      else (unicodeChar? (rest.take 4)).map fun c => (c, rest.drop 4)
  | 'U' :: rest =>
      if rest.length < 8 then none
      else (unicodeChar? (rest.take 8)).map fun c => (c, rest.drop 8)
  | _ => none

/-- What follows a line that ends in a backslash, without the blanks and line feeds that
begin it; the backslash is read already. -/
def afterLineEnd? (text : List Char) : Option (List Char) :=
  match text.dropWhile isBlank with
  | '\n' :: rest => some (rest.dropWhile fun c => isBlank c || c == '\n')
  | _ => none

/-- Reads the rest of a string up to its end. `quote` is its quote; `long` says whether it has
several lines. Characters read so far stand in reverse in `done`. -/
def body? (quote : Char) (long : Bool) (done : List Char) (chars : List Char) :
    Option (String × List Char) :=
  match chars with
  | [] => none
  | c :: rest =>
      if c = quote then
        let quotes := (chars.takeWhile (· == quote)).length
        if !long then some (String.ofList done.reverse, rest)
        else if quotes < 3 then body? quote long (c :: done) rest
        else
          let own := min 2 (quotes - 3)
          some (String.ofList (done.reverse ++ List.replicate own quote), chars.drop (own + 3))
      else if c = '\\' ∧ quote = '\x22' then
        match if long then afterLineEnd? rest else none with
        | some after => if after.length ≤ rest.length then body? quote long done after else none
        | none =>
            match escape? rest with
            | some (e, after) =>
                if after.length ≤ rest.length then body? quote long (e :: done) after else none
            | none => none
      else if isLineChar c ∨ (long ∧ c = '\n') then body? quote long (c :: done) rest
      else none
termination_by chars.length

/-- Reads a string on one line. -/
def lineText? : List Char → Option (String × List Char)
  | c :: rest => if c = '\x22' ∨ c = '\x27' then body? c false [] rest else none
  | [] => none

/-- The rest of a long string without the line feed that begins it. -/
def afterOpening : List Char → List Char
  | '\n' :: rest => rest
  | rest => rest

/-- Reads a string. -/
def text? : List Char → Option (String × List Char)
  | a :: b :: c :: rest =>
      if (a = '\x22' ∨ a = '\x27') ∧ b = a ∧ c = a then body? a true [] (afterOpening rest)
      else lineText? (a :: b :: c :: rest)
  | chars => lineText? chars

end AppendLowering.Toml
