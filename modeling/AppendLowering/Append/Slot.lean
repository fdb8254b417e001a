import AppendLowering.Code.CString

/-!
# Index slots

The runtime walks a chain of indexes that is described by a key string, one
character for each index and a marker at its end. An index takes one argument
slot, and a string two, because its length goes along.
-/

namespace AppendLowering

/-- How an index is passed to the runtime. -/
inductive Encoding where
  | integer
  | string
  | dynamic
  deriving DecidableEq, Repr

namespace Encoding

/-- The character that announces the encoding. -/
def key : Encoding → Char
  | .integer => 'l'
  | .string => 's'
  | .dynamic => 'z'

/-- The number of argument slots. -/
def slots : Encoding → Nat
  | .integer => 1
  | .string => 2
  | .dynamic => 1

/-- The name of the encoding in traces. -/
def name : Encoding → String
  | .integer => "IntegerSlot"
  | .string => "StringSlot"
  | .dynamic => "DynamicSlot"

/-- The argument for an index with the given code. -/
def argument (encoding : Encoding) (code : String) : String :=
  match encoding with
  | .integer => code
  | .string => CString.sized code
  | .dynamic => code

end Encoding

/-- A chain of indexes, ready to be passed. -/
structure KeyChain where
  encodings : List Encoding
  arguments : List String
  slots : Nat
  deriving DecidableEq, Repr

namespace KeyChain

/-- The character after the last index. -/
def marker : Char := 'a'

def empty : KeyChain := { encodings := [], arguments := [], slots := 0 }

/-- Adds an index at the end of the chain. -/
def push (chain : KeyChain) (encoding : Encoding) (code : String) : KeyChain :=
  { encodings := chain.encodings ++ [encoding]
    arguments := chain.arguments ++ [encoding.argument code]
    slots := chain.slots + encoding.slots }

/-- The chain of the given indexes. -/
def ofList (indexes : List (Encoding × String)) : KeyChain :=
  indexes.foldl (fun chain index => chain.push index.1 index.2) empty

/-- The key string. -/
def keys (chain : KeyChain) : String :=
  String.ofList (chain.encodings.map Encoding.key ++ [marker])

end KeyChain

end AppendLowering
