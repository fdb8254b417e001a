import AppendLowering.Json.Token
import AppendLowering.Json.Word

/-!
# Reading JSON

Tokens are put together on a stack of unfinished arrays and objects, so a text
is read from left to right in one pass. Nesting is limited. When an object
names a field twice, the last value counts.
-/

namespace AppendLowering.Json

/-- An array or object whose end has not been read. Items stand in reverse; `name` is the
field whose value comes next. -/
inductive Frame where
  | items (done : List Json)
  | fields (done : List (String × Json)) (name : String)
  deriving Repr

/-- What may come next. -/
inductive Expect where
  | value
  | firstItem
  | firstName
  | name
  | colon
  | separator (value : Json)
  deriving Repr

/-- The unfinished arrays and objects, the innermost first, and what may come next. -/
structure Builder where
  frames : List Frame
  expect : Expect
  deriving Repr

namespace Builder

/-- Arrays and objects can be nested this deep. -/
def depthLimit : Nat := 127

def initial : Builder := { frames := [], expect := .value }

/-- Sets a field, in the place of an earlier value of it. -/
def setField (fields : List (String × Json)) (name : String) (value : Json) :
    List (String × Json) :=
  if fields.any (fun field => field.1 == name) then
    fields.map fun field => if field.1 == name then (name, value) else field
  else
    fields ++ [(name, value)]

def enter (frames : List Frame) (frame : Frame) (expect : Expect) : Option Builder :=
  if frames.length < depthLimit then some { frames := frame :: frames, expect } else none

/-- Reads the first token of a value. -/
def beginValue (frames : List Frame) : Token → Option Builder
  | .openArray => enter frames (.items []) .firstItem
  | .openObject => enter frames (.fields [] "") .firstName
  | .text value => some { frames, expect := .separator (.string value) }
  | .word letters => (ofWord? letters).map fun value => { frames, expect := .separator value }
  | _ => none

/-- Reads the name of a field of the innermost object. -/
def beginField : List Frame → Token → Option Builder
  | .fields done _ :: frames, .text name =>
      some { frames := .fields done name :: frames, expect := .colon }
  | _, _ => none

/-- Reads one token. -/
def step (b : Builder) (token : Token) : Option Builder :=
  match b.expect, token with
  | .value, token => beginValue b.frames token
  | .firstItem, .closeArray => some { frames := b.frames.drop 1, expect := .separator (.array []) }
  | .firstItem, token => beginValue b.frames token
  | .firstName, .closeObject =>
      some { frames := b.frames.drop 1, expect := .separator (.object []) }
  | .firstName, token => beginField b.frames token
  | .name, token => beginField b.frames token
  | .colon, .colon => some { b with expect := .value }
  | .colon, _ => none
  | .separator value, token =>
      match b.frames, token with
      | .items done :: frames, .comma =>
          some { frames := .items (value :: done) :: frames, expect := .value }
      | .items done :: frames, .closeArray =>
          some { frames, expect := .separator (.array (value :: done).reverse) }
      | .fields done name :: frames, .comma =>
          some { frames := .fields (setField done name value) name :: frames, expect := .name }
      | .fields done name :: frames, .closeObject =>
          some { frames, expect := .separator (.object (setField done name value)) }
      | _, _ => none

/-- The value that has been read, once nothing is unfinished. -/
def result? (b : Builder) : Option Json :=
  match b.frames, b.expect with
  | [], .separator value => some value
  | _, _ => none

end Builder

/-- The value that a text denotes. -/
def parse? (text : String) : Option Json := do
  let tokens ← Token.scan text.toList
  let builder ← tokens.foldlM Builder.step Builder.initial
  builder.result?

end AppendLowering.Json
