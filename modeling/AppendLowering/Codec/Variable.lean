import AppendLowering.Codec.Span
import AppendLowering.Symbol.Variable

/-!
# Variables in JSON

Types and storages are words, and a variable is a record. A variable is local
and has no value, unless the record says otherwise.
-/

namespace AppendLowering

namespace DataType

def toJson (type : DataType) : Json := .string type.keyword

def ofJson? : Json → Option DataType := Codec.choice? ofKeyword?

end DataType

namespace Storage

def toJson (storage : Storage) : Json := .string storage.keyword

def ofJson? : Json → Option Storage := Codec.choice? ofKeyword?

end Storage

namespace Variable

def toJson (v : Variable) : Json :=
  .object [("name", .string v.name), ("type", v.type.toJson), ("initialized", .bool v.initialized),
    ("storage", v.storage.toJson), ("span", v.span.toJson)]

def ofJson? (json : Json) : Option Variable := do
  let record ← Codec.record? ["name", "type", "initialized", "storage", "span"] json
  let name ← record.required "name" Json.text?
  let type ← record.required "type" DataType.ofJson?
  let initialized ← record.optional "initialized" false Json.bool?
  let storage ← record.optional "storage" .localSlot Storage.ofJson?
  let span ← record.span
  return { name, type, initialized, storage, span }

end Variable

end AppendLowering
