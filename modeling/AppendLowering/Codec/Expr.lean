import AppendLowering.Codec.Span
import AppendLowering.Tree.Expr

/-!
# Expressions in JSON

A literal is an object with its kind as the only field. Expressions are tagged
by `type`, in an object or as the first element of an array.
-/

namespace AppendLowering

namespace Literal

def toJson : Literal → Json
  | .int value => .object [("int", .int value.toInt)]
  | .uint value => .object [("uint", .int value.toNat)]
  | .long value => .object [("long", .int value.toInt)]
  | .ulong value => .object [("ulong", .int value.toNat)]
  | .char code => .object [("char", .int code.toNat)]
  | .double value => .object [("double", .float value)]
  | .bool value => .object [("bool", .bool value)]
  | .string text => .object [("string", .string text)]
  | .null => .string "null"

/-- Reads the value of a literal of the named kind. -/
def ofField? (kind : String) (value : Json) : Option Literal :=
  match kind with
  | "int" => value.int64?.map .int
  | "uint" => value.uint64?.map .uint
  | "long" => value.int64?.map .long
  | "ulong" => value.uint64?.map .ulong
  | "char" => value.uint8?.map .char
  | "double" => value.double?.map .double
  | "bool" => value.bool?.map .bool
  | "string" => value.text?.map .string
  | "null" =>
      match value with
      | .null => some .null
      | .object [] => some .null
      | _ => none
  | _ => none

def ofJson? : Json → Option Literal
  | .string word => if word = "null" then some .null else none
  | .object [(kind, value)] => ofField? kind value
  | _ => none

end Literal

namespace Expr

/-- The kinds of expressions. -/
inductive Kind where
  | literal
  | var
  | array
  deriving DecidableEq, Repr

def kinds : List (String × Kind) :=
  [("literal", .literal), ("variable", .var), ("array", .array)]

mutual

def toJson : Expr → Json
  | .literal value span =>
      .object [("type", .string "literal"), ("value", value.toJson), ("span", span.toJson)]
  | .var name span =>
      .object [("type", .string "variable"), ("name", .string name), ("span", span.toJson)]
  | .array items span =>
      .object [("type", .string "array"), ("items", .array (toJsonList items)),
        ("span", span.toJson)]

def toJsonList : List Expr → List Json
  | [] => []
  | item :: rest => item.toJson :: toJsonList rest

end

def literalOfRecord? (record : Codec.Record) : Option Expr := do
  let value ← record.required "value" Literal.ofJson?
  return .literal value (← record.span)

def varOfRecord? (record : Codec.Record) : Option Expr := do
  let name ← record.required "name" Json.text?
  return .var name (← record.span)

mutual

/-- Reads an expression; `inner` says whether it stands inside another tagged value. -/
def ofJson? (inner : Bool) : Json → Option Expr
  | .object fields => do
      match ← (fields.lookup "type").bind (Codec.tag? inner kinds) with
      | .literal => literalOfRecord? fields
      | .var => varOfRecord? fields
      | .array => do
          let items ← itemsField? fields
          return .array items (← Codec.Record.span fields)
  | .array (tag :: parts) => do
      match ← Codec.tag? inner kinds tag with
      | .literal => literalOfRecord? (← Codec.positional? ["value", "span"] parts)
      | .var => varOfRecord? (← Codec.positional? ["name", "span"] parts)
      | .array =>
          match parts with
          | [] => none
          | items :: rest => do
              let items ← items? items
              return .array items (← (← Codec.positional? ["span"] rest).span)
  | _ => none

/-- The field `items` of an array expression. -/
def itemsField? : List (String × Json) → Option (List Expr)
  | [] => none
  | (name, value) :: rest => if name = "items" then items? value else itemsField? rest

/-- Reads an array of expressions that stands inside a tagged value. -/
def items? : Json → Option (List Expr)
  | .array items => list? items
  | _ => none

def list? : List Json → Option (List Expr)
  | [] => some []
  | item :: rest => do
      let item ← ofJson? true item
      return item :: (← list? rest)

end

end Expr

end AppendLowering
