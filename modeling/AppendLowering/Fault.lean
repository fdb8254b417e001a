import AppendLowering.Source.FileId

/-!
# Faults

A fault is a broken assumption of the compiler itself, not a mistake in the
compiled program: an id that names nothing, a range that cuts a character, a
number that no machine word holds, a line indented beyond all measure.
Whatever was being computed is abandoned.
-/

namespace AppendLowering

/-- The ways in which the compiler can be asked for what it cannot give. -/
inductive Fault where
  | invertedRange (start stop : UInt32)
  | mixedFiles (left right : FileId)
  | unknownId
  | outOfRange
  | splitCharacter
  | overflow
  | excessiveIndent (columns : Nat)
  deriving DecidableEq, Repr

/-- The wording of a fault, for the two that have one of their own. -/
def Fault.message? : Fault → Option String
  | .invertedRange start stop =>
      some ("Span::new() called with invalid range: start " ++ Nat.repr start.toNat ++
        " > end " ++ Nat.repr stop.toNat)
  | .mixedFiles left right =>
      some ("assertion `left == right` failed: Cannot merge spans from different files\n  left: " ++
        left.tag ++ "\n right: " ++ right.tag)
  | .unknownId => none
  | .outOfRange => none
  | .splitCharacter => none
  | .overflow => none
  | .excessiveIndent _ => none

end AppendLowering
