/-!
# Types

Variables have a declared type. A compiled expression has a resolved type,
which for a reference to a variable says only that: what the variable holds is
looked up where it matters.
-/

namespace AppendLowering

/-- The declared type of a variable. -/
inductive DataType where
  | int
  | uint
  | long
  | ulong
  | char
  | uchar
  | bool
  | double
  | string
  | null
  | array
  | dynamic
  deriving DecidableEq, Repr

namespace DataType

/-- Every declared type, in the order of the declarations above. -/
def all : List DataType :=
  [.int, .uint, .long, .ulong, .char, .uchar, .bool, .double, .string, .null, .array, .dynamic]

/-- The word for a type in documents. -/
def keyword : DataType → String
  | .int => "int"
  | .uint => "uint"
  | .long => "long"
  | .ulong => "ulong"
  | .char => "char"
  | .uchar => "uchar"
  | .bool => "bool"
  | .double => "double"
  | .string => "string"
  | .null => "null"
  | .array => "array"
  | .dynamic => "dynamic"

/-- The type of a keyword; a dynamic type may also be called `variable`. -/
def ofKeyword? (word : String) : Option DataType :=
  if word = "variable" then some .dynamic else all.find? fun type => type.keyword == word

/-- The type as it is called in messages. -/
def display (type : DataType) : String :=
  if type = .dynamic then "variable" else type.keyword

/-- Whether values of the type are machine integers that can index an array. -/
def isInteger : DataType → Bool
  | .int | .uint | .long | .ulong => true
  | _ => false

theorem ofKeyword?_keyword (type : DataType) : ofKeyword? type.keyword = some type := by
  cases type <;> decide

end DataType

/-- The type of a compiled expression. -/
inductive ResolvedType where
  | int
  | uint
  | long
  | ulong
  | char
  | uchar
  | bool
  | double
  | string
  | null
  | array
  | var
  deriving DecidableEq, Repr

namespace ResolvedType

def all : List ResolvedType :=
  [.int, .uint, .long, .ulong, .char, .uchar, .bool, .double, .string, .null, .array, .var]

/-- The type as it is called in messages. -/
def display : ResolvedType → String
  | .int => "int"
  | .uint => "uint"
  | .long => "long"
  | .ulong => "ulong"
  | .char => "char"
  | .uchar => "uchar"
  | .bool => "bool"
  | .double => "double"
  | .string => "string"
  | .null => "null"
  | .array => "array"
  | .var => "variable"

/-- The type with the given name. -/
def ofName? (name : String) : Option ResolvedType := all.find? fun type => type.display == name

/-- Whether values of the type are machine integers that can index an array. -/
def isInteger : ResolvedType → Bool
  | .int | .uint | .long | .ulong => true
  | _ => false

/-- Whether an expression of the type can be used as an index. -/
def isIndex (type : ResolvedType) : Bool :=
  type.isInteger || type == .string || type == .var

end ResolvedType

end AppendLowering
