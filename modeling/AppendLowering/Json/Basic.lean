import AppendLowering.Decimal.Double

/-!
# JSON values

Whole numbers and numbers with a fraction or an exponent are kept apart: a
field that asks for an integer does not take `1.0`. Fields keep the order in
which they were written.
-/

namespace AppendLowering

/-- A JSON value. -/
inductive Json where
  | null
  | bool (value : Bool)
  | int (value : Int)
  | float (value : Double)
  | string (text : String)
  | array (items : List Json)
  | object (fields : List (String × Json))
  deriving Repr, Inhabited

namespace Json

/-- The value of a field, if there are fields and it is one of them. -/
def field? (json : Json) (name : String) : Option Json :=
  match json with
  | .object fields => fields.lookup name
  | _ => none

def text? : Json → Option String
  | .string text => some text
  | _ => none

def bool? : Json → Option Bool
  | .bool value => some value
  | _ => none

def items? : Json → Option (List Json)
  | .array items => some items
  | _ => none

/-- A whole number from `low` up to `high`. -/
def intIn? (low high : Int) : Json → Option Int
  | .int value => if low ≤ value ∧ value ≤ high then some value else none
  | _ => none

def uint8? (json : Json) : Option UInt8 :=
  (json.intIn? 0 255).map fun value => UInt8.ofNat value.toNat

def uint32? (json : Json) : Option UInt32 :=
  (json.intIn? 0 4294967295).map fun value => UInt32.ofNat value.toNat

def uint64? (json : Json) : Option UInt64 :=
  (json.intIn? 0 18446744073709551615).map fun value => UInt64.ofNat value.toNat

def int64? (json : Json) : Option Int64 :=
  (json.intIn? (-9223372036854775808) 9223372036854775807).map Int64.ofInt

/-- Any number, whole ones rounded to the nearest double. -/
def double? : Json → Option Double
  | .int value => some (Double.ofDecimal (value < 0) value.natAbs 0)
  | .float value => some value
  | _ => none

def ofNat (n : Nat) : Json := .int n

def ofUInt32 (n : UInt32) : Json := .int n.toNat

end Json

end AppendLowering
