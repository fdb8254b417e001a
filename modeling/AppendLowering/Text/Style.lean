/-!
# Styled text

What is written in a style can be painted in different ways: left plain, or put
between terminal escape sequences. A reset inside the text would end the style
early, so the style is opened again after it.
-/

namespace AppendLowering.Text

inductive Colour where
  | red
  | yellow
  | blue
  | cyan
  | brightGreen
  | brightYellow
  deriving DecidableEq, Repr

/-- The parameter that selects a colour. -/
def Colour.code : Colour → String
  | .red => "31"
  | .yellow => "33"
  | .blue => "34"
  | .cyan => "36"
  | .brightGreen => "92"
  | .brightYellow => "93"

/-- The sequence that ends a style. -/
def reset : List Char := ['\x1b', '[', '0', 'm']

/-- Bold text, in a colour or in that of the terminal. -/
structure Style where
  colour : Option Colour
  deriving DecidableEq, Repr

namespace Style

def bold : Style := { colour := none }

def boldIn (colour : Colour) : Style := { colour := some colour }

/-- The sequence that begins the style. -/
def opening (style : Style) : String :=
  match style.colour with
  | none => "\x1b[1m"
  | some colour => "\x1b[1;" ++ colour.code ++ "m"

/-- The text with `inserted` after every reset in it. -/
def reopen (inserted : List Char) : List Char → List Char
  | '\x1b' :: '[' :: '0' :: 'm' :: rest => reset ++ inserted ++ reopen inserted rest
  | c :: rest => c :: reopen inserted rest
  | [] => []

end Style

/-- How texts in a style are shown. -/
abbrev Paint := Style → String → String

namespace Paint

/-- Styles are not shown. -/
def plain : Paint := fun _ text => text

/-- Styles are shown by escape sequences. -/
def escaped : Paint := fun style text =>
  style.opening ++ String.ofList (Style.reopen style.opening.toList text.toList) ++
    String.ofList reset

end Paint

/-- A text filled up with blanks to a width. -/
def padRight (width : Nat) (text : String) : String :=
  text ++ String.ofList (List.replicate (width - text.length) ' ')

end AppendLowering.Text
