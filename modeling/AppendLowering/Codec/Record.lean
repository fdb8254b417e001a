import AppendLowering.Json.Basic

/-!
# Records, choices and tags

How the parts of a document are written in JSON. A record is an object, whose
unknown fields do not matter, or an array of the first of its fields in order.
A choice is a word. A tagged value carries the word that says what it is.
-/

namespace AppendLowering.Codec

variable {α : Type}

/-- The fields of a record by name. -/
abbrev Record := List (String × Json)

/-- The record that gives its fields in the order of `names`. -/
def positional? (names : List String) (items : List Json) : Option Record :=
  if items.length ≤ names.length then some (names.zip items) else none

/-- The record that a value writes, its fields being called `names`. -/
def record? (names : List String) : Json → Option Record
  | .object fields => some fields
  | .array items => positional? names items
  | _ => none

/-- A field that must be there. -/
def Record.required (record : Record) (name : String) (read : Json → Option α) : Option α :=
  (List.lookup name record).bind read

/-- A field that may be left out, and must be right if it is not. -/
def Record.optional (record : Record) (name : String) (default : α) (read : Json → Option α) :
    Option α :=
  match List.lookup name record with
  | none => some default
  | some value => read value

/-- The elements of an array, each of them read. -/
def list? (read : Json → Option α) (json : Json) : Option (List α) := do
  (← json.items?).mapM read

/-- A word, alone or as the only field of an object without a value. -/
def choice? (ofWord? : String → Option α) : Json → Option α
  | .string word => ofWord? word
  | .object [(word, .null)] => ofWord? word
  | _ => none

/-- The kind that a tag names. A tag inside another tagged value may also be the position
of its word among the words. -/
def tag? (inner : Bool) (words : List (String × α)) : Json → Option α
  | .string word => words.lookup word
  | .int position =>
      if inner ∧ 0 ≤ position then words[position.toNat]?.map Prod.snd else none
  | _ => none

end AppendLowering.Codec
