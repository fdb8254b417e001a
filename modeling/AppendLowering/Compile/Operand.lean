import AppendLowering.Compile.Monad

/-!
# Operands

How a compiled expression is handed to the runtime: numbers and literal text
as they are, strings, arrays and dynamic values by the name that holds them. A
variable is looked up to learn what it holds.
-/

namespace AppendLowering

/-- What reading a variable gives. -/
def Variable.operand (v : Variable) : Operand :=
  match v.type with
  | .int | .uint | .long | .ulong | .char | .uchar => .immediate (.long v.name)
  | .double => .immediate (.double v.name)
  | .bool => .immediate (.bool v.name)
  | .null => .immediate .null
  | .string | .array | .dynamic => .held v.name

/-- What a compiled expression gives. -/
def Resolved.operand (value : Resolved) (context : Context) : Except Failure Operand :=
  match value.type with
  | .int | .uint | .long | .ulong | .char | .uchar => .ok (.immediate (.long value.code))
  | .double => .ok (.immediate (.double value.code))
  | .bool => .ok (.immediate (.bool value.code))
  | .null => .ok (.immediate .null)
  | .string => .ok (.immediate (.text value.code))
  | .array => .ok (.held value.code)
  | .var => (context.readVariable value.code value.span).map Variable.operand

end AppendLowering
