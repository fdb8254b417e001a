import AppendLowering.Append.Call

/-!
# Lines of emitted code

The statements of the emitted code, before they are written out.
-/

namespace AppendLowering

/-- A value that is not kept in a runtime value of its own: the code of a number, or the body
of a string literal. -/
inductive Immediate where
  | long (code : String)
  | double (code : String)
  | bool (code : String)
  | null
  | text (body : String)
  deriving DecidableEq, Repr

/-- A value that can be put into an array. -/
inductive Operand where
  | immediate (value : Immediate)
  | held (name : String)
  deriving DecidableEq, Repr

/-- A line of emitted code. -/
inductive Line where
  /-- Makes the holder a fresh runtime value. -/
  | fresh (holder : String)
  /-- Makes the holder an array with room for `size` items. -/
  | initArray (holder : String) (size : Nat)
  /-- Sets the holder to a value. -/
  | store (holder : String) (value : Immediate)
  /-- Appends a value to the array in the holder. -/
  | push (holder : String) (item : Operand)
  | call (call : RuntimeCall)
  deriving DecidableEq, Repr

namespace Line

/-- A call statement. -/
def statement (function : String) (arguments : List String) : String :=
  function ++ "(" ++ ", ".intercalate arguments ++ ");"

def render : Line → String
  | .fresh holder => statement "ZEPHIR_INIT_VAR" [holder]
  | .initArray holder size => statement "array_init_size" [holder, Nat.repr size]
  | .store holder (.long code) => statement "ZVAL_LONG" [holder, code]
  | .store holder (.double code) => statement "ZVAL_DOUBLE" [holder, code]
  | .store holder (.bool code) => statement "ZVAL_BOOL" [holder, code]
  | .store holder .null => statement "ZVAL_NULL" [holder]
  | .store holder (.text body) => statement "ZVAL_STRING" [holder, "\"" ++ body ++ "\"", "1"]
  | .push holder (.immediate (.long code)) => statement "add_next_index_long" [holder, code]
  | .push holder (.immediate (.double code)) => statement "add_next_index_double" [holder, code]
  | .push holder (.immediate (.bool code)) => statement "add_next_index_bool" [holder, code]
  | .push holder (.immediate .null) => statement "add_next_index_null" [holder]
  | .push holder (.immediate (.text body)) =>
      statement "add_next_index_stringl" [holder, CString.sized body, "1"]
  | .push holder (.held name) => statement "zephir_array_fast_append" [holder, name]
  | .call c => c.render ++ ";"

end Line

end AppendLowering
