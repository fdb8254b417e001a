import AppendLowering.Text.Digits

/-!
# JSON tokens

The lexical half of reading JSON. Strings are decoded here; numbers and the
three named values are words, whose value is not looked at.
-/

namespace AppendLowering.Json

inductive Token where
  | openArray
  | closeArray
  | openObject
  | closeObject
  | comma
  | colon
  | text (value : String)
  | word (letters : List Char)
  deriving DecidableEq, Repr

namespace Token

/-- What the characters read so far have begun. Collected characters stand in reverse. -/
inductive Mode where
  /-- Nothing. -/
  | between
  /-- A word. -/
  | inWord (letters : List Char)
  /-- A string. -/
  | inText (chars : List Char)
  /-- A string, after a backslash. -/
  | inEscape (chars : List Char)
  /-- A string, with `missing` hexadecimal digits to come; `high` is the first half of a
  surrogate pair, if one was read. -/
  | inUnicode (chars : List Char) (high : Option Nat) (missing value : Nat)
  /-- A string, after the first half of a surrogate pair. -/
  | afterHigh (chars : List Char) (high : Nat)
  /-- The same, after the backslash that must follow. -/
  | afterHighEscape (chars : List Char) (high : Nat)

/-- The token that a character is on its own. -/
def punctuation? : Char → Option Token
  | '[' => some .openArray
  | ']' => some .closeArray
  | '\x7b' => some .openObject
  | '\x7d' => some .closeObject
  | ',' => some .comma
  | ':' => some .colon
  | _ => none

def isBlank (c : Char) : Bool := c == ' ' || c == '\n' || c == '\t' || c == '\r'

/-- The character that a backslash and a letter stand for. -/
def escaped? : Char → Option Char
  | '\x22' => some '\x22'
  | '\\' => some '\\'
  | '/' => some '/'
  | 'b' => some '\x08'
  | 'f' => some '\x0c'
  | 'n' => some '\n'
  | 'r' => some '\r'
  | 't' => some '\t'
  | _ => none

/-- The mode after the last digit of a hexadecimal escape. A pair of surrogates is one
character, and half a pair is none. -/
def unicode (chars : List Char) (high : Option Nat) (value : Nat) : Option Mode :=
  match high with
  | none =>
      if 0xd800 ≤ value ∧ value ≤ 0xdbff then some (.afterHigh chars value)
      else if 0xdc00 ≤ value ∧ value ≤ 0xdfff then none
      else some (.inText (Char.ofNat value :: chars))
  | some high =>
      if 0xdc00 ≤ value ∧ value ≤ 0xdfff then
        some (.inText (Char.ofNat (0x10000 + (high - 0xd800) * 0x400 + (value - 0xdc00)) :: chars))
      else none

/-- Reads a character outside strings, where nothing is begun. -/
def start (c : Char) : List Token × Mode :=
  if isBlank c then ([], .between)
  else if c = '\x22' then ([], .inText [])
  else match punctuation? c with
    | some token => ([token], .between)
    | none => ([], .inWord [c])

/-- Reads one character: the tokens that it completes, and the mode after it. -/
def step (mode : Mode) (c : Char) : Option (List Token × Mode) :=
  match mode with
  | .between => some (start c)
  | .inWord letters =>
      if isBlank c ∨ c = '\x22' ∨ (punctuation? c).isSome then
        let (tokens, mode) := start c
        some (.word letters.reverse :: tokens, mode)
      else some ([], .inWord (c :: letters))
  | .inText chars =>
      if c = '\x22' then some ([.text (String.ofList chars.reverse)], .between)
      else if c = '\\' then some ([], .inEscape chars)
      else if c.toNat < 0x20 then none
      else some ([], .inText (c :: chars))
  | .inEscape chars =>
      if c = 'u' then some ([], .inUnicode chars none 4 0)
      else (escaped? c).map fun e => ([], .inText (e :: chars))
  | .inUnicode chars high missing value => do
      let value := value * 16 + (← Text.digitIn? 16 c)
      if missing ≤ 1 then return ([], ← unicode chars high value)
      return ([], .inUnicode chars high (missing - 1) value)
  | .afterHigh chars high => if c = '\\' then some ([], .afterHighEscape chars high) else none
  | .afterHighEscape chars high =>
      if c = 'u' then some ([], .inUnicode chars (some high) 4 0) else none

/-- The tokens read so far, in reverse, and the mode after them. -/
structure Scanner where
  tokens : List Token
  mode : Mode

/-- Reads one more character. -/
def Scanner.feed (scanner : Scanner) (c : Char) : Option Scanner := do
  let (tokens, mode) ← step scanner.mode c
  return { tokens := tokens.reverse ++ scanner.tokens, mode }

/-- All tokens, once the text has ended where a token may end. -/
def Scanner.finish (scanner : Scanner) : Option (List Token) :=
  match scanner.mode with
  | .between => some scanner.tokens.reverse
  | .inWord letters => some (.word letters.reverse :: scanner.tokens).reverse
  | _ => none

/-- The tokens of a text. -/
def scan (text : List Char) : Option (List Token) := do
  let scanner ← text.foldlM Scanner.feed { tokens := [], mode := .between }
  scanner.finish

end Token

end AppendLowering.Json
