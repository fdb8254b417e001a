/-!
# Cutting text by bytes

Positions in a text count UTF-8 bytes, and a text can only be cut between two
characters. Everything here works on the list of characters.
-/

namespace AppendLowering.Text

/-- The number of UTF-8 bytes of a text. -/
def byteLength : List Char → Nat
  | [] => 0
  | c :: rest => c.utf8Size + byteLength rest

/-- Splits a text after its first `n` bytes. A text with fewer bytes is kept
whole, and a cut inside a character has no answer. -/
def splitBytes : Nat → List Char → Option (List Char × List Char)
  | _, [] => some ([], [])
  | 0, text => some ([], text)
  | n + 1, c :: rest =>
      if c.utf8Size ≤ n + 1 then
        (splitBytes (n + 1 - c.utf8Size) rest).map fun parts => (c :: parts.1, parts.2)
      else
        none

/-- The bytes from `start` up to `stop`, both of them inside the text. -/
def sliceBytes (text : List Char) (start stop : Nat) : Option (List Char) := do
  if stop < start ∨ byteLength text < stop then none
  let (_, rest) ← splitBytes start text
  let (slice, _) ← splitBytes (stop - start) rest
  return slice

@[simp] theorem byteLength_append (a b : List Char) :
    byteLength (a ++ b) = byteLength a + byteLength b := by
  induction a with
  | nil => simp [byteLength]
  | cons c rest ih => simp [byteLength, ih, Nat.add_assoc]

theorem splitBytes_append (a b : List Char) :
    splitBytes (byteLength a) (a ++ b) = some (a, b) := by
  induction a with
  | nil => cases b <;> simp [byteLength, splitBytes]
  | cons c rest ih =>
      obtain ⟨n, hn⟩ : ∃ n, byteLength (c :: rest) = n + 1 :=
        ⟨byteLength (c :: rest) - 1, by have := c.utf8Size_pos; simp only [byteLength]; omega⟩
      have hle : c.utf8Size ≤ n + 1 := by simp only [byteLength] at hn; omega
      have hsub : n + 1 - c.utf8Size = byteLength rest := by
        simp only [byteLength] at hn; omega
      rw [hn, List.cons_append, splitBytes, if_pos hle, hsub, ih]
      rfl

end AppendLowering.Text
