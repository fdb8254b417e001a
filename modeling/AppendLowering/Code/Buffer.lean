import AppendLowering.Fault
import AppendLowering.Text.Bytes

/-!
# Code buffers

Emitted code collects in a buffer, line after line. A mark is the number of
bytes written, and the buffer can be cut back to it.
-/

namespace AppendLowering

/-- The emitted code. -/
structure CodeBuffer where
  text : String
  deriving DecidableEq, Repr

namespace CodeBuffer

def empty : CodeBuffer := ⟨""⟩

instance : Inhabited CodeBuffer := ⟨empty⟩

def isEmpty (buffer : CodeBuffer) : Bool := buffer.text.isEmpty

/-- Adds a line. -/
def writeLine (buffer : CodeBuffer) (line : String) : CodeBuffer := ⟨buffer.text ++ line ++ "\n"⟩

/-- The number of bytes written. -/
def mark (buffer : CodeBuffer) : Nat := Text.byteLength buffer.text.toList

/-- Keeps the bytes before a mark; a mark past the end keeps all. A cut inside a
character is a fault. -/
def rollback (buffer : CodeBuffer) (mark : Nat) : Except Fault CodeBuffer :=
  match Text.splitBytes mark buffer.text.toList with
  | some (kept, _) => .ok ⟨String.ofList kept⟩
  | none => .error .splitCharacter

/-- Whatever was written after a mark is undone by going back to it. -/
theorem rollback_mark (buffer : CodeBuffer) (written : String) :
    rollback ⟨buffer.text ++ written⟩ buffer.mark = .ok buffer := by
  simp [rollback, mark, Text.splitBytes_append]

end CodeBuffer

end AppendLowering
