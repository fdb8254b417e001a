import AppendLowering.Append.Container
import AppendLowering.Append.Slot

/-!
# Runtime calls

An append becomes one call of a runtime function: the container, the address
of the appended value, the key string, the number of argument slots, and the
index arguments.
-/

namespace AppendLowering

/-- A call that appends the value of `holder`. -/
structure RuntimeCall where
  container : Container
  holder : String
  chain : KeyChain
  zts : Bool
  deriving DecidableEq, Repr

namespace RuntimeCall

/-- The argument that passes the value. -/
def valueArgument (call : RuntimeCall) : String :=
  "&" ++ call.holder ++ (if call.zts then " TSRMLS_CC" else "")

def arguments (call : RuntimeCall) : List String :=
  call.container.leading ++
    [call.valueArgument, CString.sized call.chain.keys, Nat.repr call.chain.slots] ++
    call.chain.arguments

/-- The text of the call. -/
def render (call : RuntimeCall) : String :=
  call.container.function ++ "(" ++ ", ".intercalate call.arguments ++ ")"

end RuntimeCall

end AppendLowering
