import AppendLowering.Code.CString
import AppendLowering.Code.Header
import AppendLowering.Symbol.Type
import AppendLowering.Tree.Statement

/-!
# Containers

The three kinds of containers differ in the runtime function that appends to
them, in its first arguments, and in what the container must be declared as.
-/

namespace AppendLowering

namespace Container

/-- The runtime function that appends to the container. -/
def function : Container → String
  | .var _ => "zephir_array_update_multi"
  | .property .. => "zephir_update_property_array_multi"
  | .staticProperty .. => "zephir_update_static_property_array_multi_ce"

/-- The header that declares the function. -/
def header : Container → Header
  | .var _ => .kernel "array"
  | .property .. => .kernel "object"
  | .staticProperty .. => .kernel "object"

/-- The arguments that name the container. -/
def leading : Container → List String
  | .var name => ["&" ++ name]
  | .property object field => [object, CString.sized (CString.escape field)]
  | .staticProperty classEntry field => [classEntry, CString.sized (CString.escape field)]

/-- The variable that must be usable before anything else is compiled. -/
def base? : Container → Option String
  | .var name => some name
  | .property object _ => some object
  | .staticProperty .. => none

/-- Whether a variable of the type can be the container. -/
def accepts : Container → DataType → Bool
  | .var _, type => type == .dynamic || type == .array
  | .property .., type => type == .dynamic
  | .staticProperty .., _ => true

/-- What the variable is used as, in messages. -/
def use : Container → String
  | .var _ => "array"
  | .property .. => "object"
  | .staticProperty .. => "object"

end Container

end AppendLowering
