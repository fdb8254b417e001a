import AppendLowering.Decimal.Double

/-!
# TOML tables

A TOML document builds one table. Every table remembers how it came to be,
because that decides whether a later line may add to it: a table in braces is
closed, one with a header of its own may not be extended by dotted keys, and
one that dotted keys made may not get a header.
-/

namespace AppendLowering

/-- How a table came to be. -/
inductive Toml.Origin where
  /-- It was written in braces. -/
  | inline
  /-- It has a header, or is the whole document. -/
  | header
  /-- The header of a table inside it mentions it. -/
  | implied
  /-- A dotted key goes through it. -/
  | dotted
  deriving DecidableEq, Repr

/-- A TOML value. The content of dates and times is not kept. -/
inductive Toml where
  | text (value : String)
  | integer (value : Int)
  | float (value : Double)
  | bool (value : Bool)
  | moment
  | list (items : List Toml)
  | table (origin : Toml.Origin) (entries : List (String × Toml))
  /-- Tables that share a header in double brackets. -/
  | tables (items : List (List (String × Toml)))
  deriving Repr, Inhabited

namespace Toml

/-- The entries of a table. -/
abbrev Entries := List (String × Toml)

/-- Sets an entry, in the place of an earlier value of it. -/
def Entries.set (entries : Entries) (key : String) (value : Toml) : Entries :=
  if entries.any (fun entry => entry.1 == key) then
    entries.map fun entry => if entry.1 == key then (key, value) else entry
  else
    entries ++ [(key, value)]

/-- A table under construction. -/
structure Table where
  origin : Origin
  entries : Entries

/-- Changes the table that a path leads to, making the tables on the way that are missing.
The path is that of a header or, if `dotted`, the path of a dotted key. -/
def Table.update (dotted : Bool) (change : Table → Option Table) (table : Table) :
    List String → Option Table
  | [] => change table
  | key :: path =>
      let put (value : Toml) : Table := { table with entries := table.entries.set key value }
      match List.lookup key table.entries with
      | none => do
          let origin := if dotted then .dotted else .implied
          let inner ← update dotted change { origin, entries := [] } path
          return put (.table inner.origin inner.entries)
      | some (.table origin entries) => do
          if origin = .inline ∨ (dotted ∧ origin = .header) then none
          let inner ← update dotted change { origin, entries } path
          return put (.table inner.origin inner.entries)
      | some (.tables items) => do
          let inner ← update dotted change { origin := .header, entries := ← items.getLast? } path
          return put (.tables (items.dropLast ++ [inner.entries]))
      | some _ => none

/-- Adds a value under a key that goes through the tables of `path`. -/
def Table.insert (table : Table) (path : List String) (key : String) (value : Toml) :
    Option Table :=
  let add (inner : Table) : Option Table :=
    if decide (inner.origin = .dotted) = path.isEmpty ∨ (List.lookup key inner.entries).isSome then
      none
    else
      some { inner with entries := inner.entries ++ [(key, value)] }
  table.update true add path

/-- Adds the table of a header, which may have been implied before. -/
def Table.openTable (table : Table) (path : List String) (key : String) : Option Table :=
  let add (inner : Table) : Option Table :=
    match List.lookup key inner.entries with
    | none => some { inner with entries := inner.entries ++ [(key, .table .header [])] }
    | some (.table .implied entries) =>
        some { inner with entries := inner.entries.set key (.table .header entries) }
    | some _ => none
  table.update false add path

/-- Adds one more table under a header in double brackets. -/
def Table.openElement (table : Table) (path : List String) (key : String) : Option Table :=
  let add (inner : Table) : Option Table :=
    match List.lookup key inner.entries with
    | none => some { inner with entries := inner.entries ++ [(key, .tables [[]])] }
    | some (.tables items) =>
        some { inner with entries := inner.entries.set key (.tables (items ++ [[]])) }
    | some _ => none
  table.update false add path

end Toml

end AppendLowering
