import AppendLowering.Codec.Expr
import AppendLowering.Tree.Statement

/-!
# Statements in JSON

Targets are tagged by `assign-type` and statements by `type`. The parts of a
statement stand inside a tagged value.
-/

namespace AppendLowering

namespace Target

/-- The kinds of targets. -/
inductive Kind where
  | var
  | property
  | staticProperty
  deriving DecidableEq, Repr

def kinds : List (String × Kind) :=
  [("array-index-append", .var), ("object-property-array-index-append", .property),
    ("static-property-array-index-append", .staticProperty)]

/-- The fields of a kind of target in their order. -/
def Kind.fields : Kind → List String
  | .var => ["variable", "index-expr"]
  | .property => ["variable", "property", "index-expr"]
  | .staticProperty => ["class-entry", "property", "index-expr"]

def toJson (target : Target) : Json :=
  let indexes : String × Json := ("index-expr", .array (Expr.toJsonList target.indexes))
  match target.container with
  | .var name =>
      .object [("assign-type", .string "array-index-append"), ("variable", .string name), indexes]
  | .property object field =>
      .object [("assign-type", .string "object-property-array-index-append"),
        ("variable", .string object), ("property", .string field), indexes]
  | .staticProperty classEntry field =>
      .object [("assign-type", .string "static-property-array-index-append"),
        ("class-entry", .string classEntry), ("property", .string field), indexes]

def containerOfRecord? (record : Codec.Record) : Kind → Option Container
  | .var => do
      return .var (← record.required "variable" Json.text?)
  | .property => do
      let object ← record.required "variable" Json.text?
      return .property object (← record.required "property" Json.text?)
  | .staticProperty => do
      let classEntry ← record.required "class-entry" Json.text?
      return .staticProperty classEntry (← record.required "property" Json.text?)

/-- Reads a target; `inner` says whether it stands inside another tagged value. -/
def ofJson? (inner : Bool) (json : Json) : Option Target := do
  let (kind, record) ← match json with
    | .object fields => do
        let kind ← (fields.lookup "assign-type").bind (Codec.tag? inner kinds)
        pure (kind, fields)
    | .array (tag :: parts) => do
        let kind ← Codec.tag? inner kinds tag
        pure (kind, ← Codec.positional? kind.fields parts)
    | _ => none
  let container ← containerOfRecord? record kind
  let indexes ← Codec.Record.required record "index-expr" Expr.items?
  return { container, indexes }

end Target

namespace Assignment

def toJson (assignment : Assignment) : Json :=
  .object [("target", assignment.target.toJson), ("expr", assignment.value.toJson),
    ("span", assignment.span.toJson)]

/-- Reads an assignment; `inner` says whether it stands inside a tagged value. -/
def ofJson? (inner : Bool) (json : Json) : Option Assignment := do
  let record ← Codec.record? ["target", "expr", "span"] json
  let target ← record.required "target" (Target.ofJson? inner)
  let value ← record.required "expr" (Expr.ofJson? inner)
  return { target, value, span := ← record.span }

end Assignment

namespace Statement

def toJson (statement : Statement) : Json :=
  .object [("type", .string "let"),
    ("assignments", .array (statement.assignments.map Assignment.toJson)),
    ("span", statement.span.toJson)]

def ofJson? (json : Json) : Option Statement := do
  let record ← match json with
    | .object fields => do
        let () ← (fields.lookup "type").bind (Codec.tag? false [("let", ())])
        pure fields
    | .array (tag :: parts) => do
        let () ← Codec.tag? false [("let", ())] tag
        Codec.positional? ["assignments", "span"] parts
    | _ => none
  let assignments ← Codec.Record.required record "assignments"
    (Codec.list? (Assignment.ofJson? true))
  return { assignments, span := ← Codec.Record.span record }

end Statement

end AppendLowering
