import AppendLowering.Text.Bytes

/-!
# Positions between characters

A position counts bytes, so it may lie inside a character. Every other position
has a text before it: the characters up to a boundary, or the whole text when
the position lies past its end. Cutting a text answers exactly there.
-/

namespace AppendLowering.Text

/-- The position lies between two characters of the text, or at one of its ends. -/
def Boundary (text : List Char) (position : Nat) : Prop :=
  ∃ before after, text = before ++ after ∧ position = byteLength before

/-- The position lies inside a character of the text. -/
def Splits (text : List Char) (position : Nat) : Prop :=
  position < byteLength text ∧ ¬ Boundary text position

/-- The characters before a position, all of them if the position lies past the end. -/
def Precedes (before text : List Char) (position : Nat) : Prop :=
  ∃ after, text = before ++ after ∧ byteLength before = min position (byteLength text)

theorem byteLength_feed (rest : List Char) : byteLength ('\n' :: rest) = byteLength rest + 1 := by
  rw [byteLength, show Char.utf8Size '\n' = 1 by decide, Nat.add_comm]

theorem length_le_byteLength (text : List Char) : text.length ≤ byteLength text := by
  induction text with
  | nil => exact Nat.le_refl 0
  | cons c rest ih =>
      have hsize := c.utf8Size_pos
      simp only [byteLength, List.length_cons]
      omega

theorem precedes_append (before after : List Char) :
    Precedes before (before ++ after) (byteLength before) := by
  refine ⟨after, rfl, ?_⟩
  rw [byteLength_append]
  omega

theorem Boundary.precedes {text : List Char} {position : Nat} (h : Boundary text position) :
    ∃ before, Precedes before text position ∧ byteLength before = position := by
  obtain ⟨before, after, rfl, rfl⟩ := h
  exact ⟨before, precedes_append before after, rfl⟩

theorem precedes_of_past_end {text : List Char} {position : Nat} (h : byteLength text ≤ position) :
    Precedes text text position :=
  ⟨[], by simp, by omega⟩

/-- A position inside a character has no text before it. -/
theorem Splits.not_precedes {text before : List Char} {position : Nat} (h : Splits text position) :
    ¬ Precedes before text position := by
  rintro ⟨after, htext, hlength⟩
  have hlt := h.1
  exact h.2 ⟨before, after, htext, by omega⟩

/-- A position comes after a text, or it lies inside a character that comes after a text. -/
theorem precedes_or_inside (text : List Char) (position : Nat) :
    (∃ before, Precedes before text position) ∨
      ∃ before c after, text = before ++ c :: after ∧ byteLength before < position ∧
        position < byteLength before + c.utf8Size := by
  induction text generalizing position with
  | nil => exact .inl ⟨[], [], rfl, by simp [byteLength]⟩
  | cons c rest ih =>
      rcases Nat.eq_zero_or_pos position with rfl | hpos
      · exact .inl ⟨[], c :: rest, rfl, by simp [byteLength]⟩
      by_cases hinside : position < c.utf8Size
      · exact .inr ⟨[], c, rest, rfl, hpos, by simpa [byteLength] using hinside⟩
      -- The first character is passed, and the rest begins at its own position zero.
      rcases ih (position - c.utf8Size) with ⟨before, after, rfl, hlength⟩ |
          ⟨before, d, after, rfl, hlow, hhigh⟩
      · refine .inl ⟨c :: before, after, rfl, ?_⟩
        simp only [byteLength]
        omega
      · refine .inr ⟨c :: before, d, after, rfl, ?_, ?_⟩ <;> simp only [byteLength] <;> omega

theorem Splits.inside {text : List Char} {position : Nat} (h : Splits text position) :
    ∃ before c after, text = before ++ c :: after ∧ byteLength before < position ∧
      position < byteLength before + c.utf8Size := by
  rcases precedes_or_inside text position with ⟨before, hbefore⟩ | hinside
  · exact absurd hbefore h.not_precedes
  · exact hinside

theorem exists_precedes_iff (text : List Char) (position : Nat) :
    (∃ before, Precedes before text position) ↔ ¬ Splits text position := by
  constructor
  · rintro ⟨before, hbefore⟩ hsplits
    exact hsplits.not_precedes hbefore
  · intro hsplits
    by_cases hlt : position < byteLength text
    · have hboundary : Boundary text position :=
        Classical.not_not.mp fun hinside => hsplits ⟨hlt, hinside⟩
      obtain ⟨before, hbefore, -⟩ := hboundary.precedes
      exact ⟨before, hbefore⟩
    · exact ⟨text, precedes_of_past_end (Nat.not_lt.mp hlt)⟩

/-- There is no cut inside a character. -/
theorem splitBytes_inside {before after : List Char} {c : Char} {n : Nat}
    (hlow : byteLength before < n) (hhigh : n < byteLength before + c.utf8Size) :
    splitBytes n (before ++ c :: after) = none := by
  obtain ⟨n, rfl⟩ : ∃ m, n = m + 1 := ⟨n - 1, by omega⟩
  induction before generalizing n with
  | nil =>
      simp only [byteLength] at hhigh
      rw [List.nil_append, splitBytes, if_neg (by omega)]
  | cons d before ih =>
      simp only [byteLength] at hlow hhigh
      obtain ⟨m, hm⟩ : ∃ m, n + 1 - d.utf8Size = m + 1 := ⟨n - d.utf8Size, by omega⟩
      rw [List.cons_append, splitBytes, if_pos (by omega), hm, ih m (by omega) (by omega)]
      rfl

theorem sliceBytes_of_le {text : List Char} {start stop : Nat} (hle : start ≤ stop)
    (hin : stop ≤ byteLength text) :
    sliceBytes text start stop = do
      let (_, rest) ← splitBytes start text
      let (slice, _) ← splitBytes (stop - start) rest
      return slice := by
  rw [sliceBytes, if_neg (by omega)]

/-- The part of a text between two of its boundaries. -/
theorem sliceBytes_append (before slice after : List Char) :
    sliceBytes (before ++ slice ++ after) (byteLength before) (byteLength (before ++ slice)) =
      some slice := by
  rw [sliceBytes_of_le (by simp) (by simp), List.append_assoc, splitBytes_append,
    byteLength_append, Nat.add_sub_cancel_left]
  simp [splitBytes_append]

theorem sliceBytes_inside {before slice after : List Char} {c : Char} {stop : Nat}
    (hlow : byteLength (before ++ slice) < stop)
    (hhigh : stop < byteLength (before ++ slice) + c.utf8Size) :
    sliceBytes (before ++ slice ++ c :: after) (byteLength before) stop = none := by
  rw [byteLength_append] at hlow hhigh
  have hin : stop ≤ byteLength (before ++ slice ++ c :: after) := by
    simp only [byteLength_append, byteLength]
    omega
  have hcut : splitBytes (stop - byteLength before) (slice ++ c :: after) = none :=
    splitBytes_inside (by omega) (by omega)
  rw [sliceBytes_of_le (by omega) hin, List.append_assoc, splitBytes_append]
  simp [hcut]

end AppendLowering.Text
