import AppendLowering.Text.Digits

/-!
# Visible text

Messages show text with every character visible: printable ASCII as it is, and
all else, with the quotes and the backslash, as an escape.
-/

namespace AppendLowering.Text

/-- A character as it is shown. -/
def visibleChar (c : Char) : List Char :=
  match c with
  | '\t' => ['\\', 't']
  | '\r' => ['\\', 'r']
  | '\n' => ['\\', 'n']
  | '\x27' => ['\\', '\x27']
  | '\x22' => ['\\', '\x22']
  | '\\' => ['\\', '\\']
  | c =>
      if 0x20 ≤ c.toNat ∧ c.toNat ≤ 0x7e then [c]
      else ['\\', 'u', '\x7b'] ++ hexDigits c.toNat ++ ['\x7d']

def visible (text : String) : String := String.ofList (text.toList.flatMap visibleChar)

end AppendLowering.Text
