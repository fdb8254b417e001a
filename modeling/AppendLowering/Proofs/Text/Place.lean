import AppendLowering.Proofs.Text.Lines
import Mathlib.Data.List.DropRight
import Mathlib.Data.Prod.Lex

/-!
# Places in a text

Walking over a text, a line feed begins a new line and any other character is
one column wide. The place after a text is the line and the column where the
walk stands then, both counted from one. Among the lines of the whole text, the
line with this number is the one in which the walk stands.
-/

namespace AppendLowering.Text

/-- The place after one more character. -/
def advance (place : Nat × Nat) (c : Char) : Nat × Nat :=
  if c = '\n' then (place.1 + 1, 1) else (place.1, place.2 + 1)

/-- The place after a text. -/
def place (before : List Char) : Nat × Nat := before.foldl advance (1, 1)

/-- The characters after the last line feed. -/
def lastLine (before : List Char) : List Char := before.rtakeWhile (· ≠ '\n')

/-- The characters up to the last line feed, which is one of them. -/
def linesAbove (before : List Char) : List Char := before.rdropWhile (· ≠ '\n')

/-- The characters before the first line feed. -/
def firstLine (after : List Char) : List Char := after.takeWhile (· ≠ '\n')

theorem linesAbove_append_lastLine (before : List Char) :
    linesAbove before ++ lastLine before = before :=
  List.rdropWhile_append_rtakeWhile

theorem feed_notMem_lastLine (before : List Char) : '\n' ∉ lastLine before := by
  intro hmem
  simpa using List.mem_rtakeWhile_imp hmem

theorem feed_notMem_firstLine (after : List Char) : '\n' ∉ firstLine after := by
  intro hmem
  simpa using List.mem_takeWhile_imp hmem

@[simp] theorem lastLine_nil : lastLine [] = [] := by
  simp [lastLine]

@[simp] theorem linesAbove_nil : linesAbove [] = [] := by
  simp [linesAbove]

@[simp] theorem lastLine_concat_feed (before : List Char) : lastLine (before ++ ['\n']) = [] := by
  simp [lastLine]

@[simp] theorem linesAbove_concat_feed (before : List Char) :
    linesAbove (before ++ ['\n']) = before ++ ['\n'] := by
  simp [linesAbove]

theorem lastLine_concat {c : Char} (hc : c ≠ '\n') (before : List Char) :
    lastLine (before ++ [c]) = lastLine before ++ [c] := by
  simp [lastLine, hc]

theorem linesAbove_concat {c : Char} (hc : c ≠ '\n') (before : List Char) :
    linesAbove (before ++ [c]) = linesAbove before := by
  simp [linesAbove, hc]

@[simp] theorem firstLine_nil : firstLine [] = [] := rfl

@[simp] theorem firstLine_feed (after : List Char) : firstLine ('\n' :: after) = [] := by
  simp [firstLine]

theorem firstLine_cons {c : Char} (hc : c ≠ '\n') (after : List Char) :
    firstLine (c :: after) = c :: firstLine after := by
  simp [firstLine, hc]

theorem firstLine_of_unbroken {after : List Char} (h : '\n' ∉ after) : firstLine after = after := by
  apply List.takeWhile_eq_self_iff.mpr
  intro c hc
  simpa using fun heq : c = '\n' => h (heq ▸ hc)

theorem place_concat (before : List Char) (c : Char) :
    place (before ++ [c]) = advance (place before) c := by
  simp [place]

/-- The line is one more than the line feeds, the column one more than the characters after the
last of them. -/
theorem place_eq (before : List Char) :
    place before = (before.count '\n' + 1, (lastLine before).length + 1) := by
  induction before using List.reverseRecOn with
  | nil => simp [place]
  | append_singleton before c ih =>
      rw [place_concat, ih, advance, List.count_append]
      split
      · next hc => simp [hc]
      · next hc => simp [lastLine_concat hc, hc]

theorem lt_advance (start : Nat × Nat) (c : Char) : toLex start < toLex (advance start c) := by
  rw [Prod.Lex.toLex_lt_toLex, advance]
  split <;> simp

/-- Every character leads to a later place. -/
theorem place_lt {after : List Char} (hafter : after ≠ []) (before : List Char) :
    toLex (place before) < toLex (place (before ++ after)) := by
  induction after using List.reverseRecOn with
  | nil => exact absurd rfl hafter
  | append_singleton after c ih =>
      rw [← List.append_assoc, place_concat]
      refine lt_of_le_of_lt ?_ (lt_advance _ c)
      by_cases hnil : after = []
      · simp [hnil]
      · exact (ih hnil).le

theorem lastLine_append {after : List Char} (h : '\n' ∉ after) (before : List Char) :
    lastLine (before ++ after) = lastLine before ++ after := by
  induction after using List.reverseRecOn with
  | nil => simp
  | append_singleton after c ih =>
      rw [List.mem_append, not_or, List.mem_singleton] at h
      rw [← List.append_assoc, lastLine_concat (Ne.symm h.2), ih h.1, List.append_assoc]

theorem firstLine_append_of_feed {text : List Char} (h : '\n' ∈ text) (after : List Char) :
    firstLine (text ++ after) = firstLine text := by
  induction text with
  | nil => cases h
  | cons c text ih =>
      rw [List.cons_append]
      by_cases hc : c = '\n'
      · rw [hc, firstLine_feed, firstLine_feed]
      · have hmem := (List.mem_cons.mp h).resolve_left (Ne.symm hc)
        rw [firstLine_cons hc, firstLine_cons hc, ih hmem]

/-! ### The line of a place -/

/-- Line feeds end the lines of the text, without carriage returns before them. -/
def FeedsOnly (text : List Char) : Prop := ¬ ['\r', '\n'] <:+: text

instance (text : List Char) : Decidable (FeedsOnly text) :=
  inferInstanceAs (Decidable (¬ ['\r', '\n'] <:+: text))

theorem FeedsOnly.of_append {before after : List Char} (h : FeedsOnly (before ++ after)) :
    FeedsOnly after :=
  fun hreturn => h (hreturn.trans (List.suffix_append before after).isInfix)

theorem FeedsOnly.dropCarriageReturn_eq {line rest : List Char}
    (h : FeedsOnly (line ++ '\n' :: rest)) : dropCarriageReturn line = line := by
  apply if_neg
  intro hlast
  obtain ⟨body, rfl⟩ := List.getLast?_eq_some_iff.mp hlast
  exact h ⟨body, rest, by simp⟩

/-- The first of the lines of a text whose first line is begun. -/
theorem head?_linesFrom {line after : List Char} (h : FeedsOnly (line ++ after)) :
    (linesFrom line after).head? =
      if line ++ after = [] then none else some (line ++ firstLine after) := by
  induction after generalizing line with
  | nil => cases line <;> simp [linesFrom]
  | cons c rest ih =>
      by_cases hc : c = '\n'
      · subst hc
        simp [linesFrom, h.dropCarriageReturn_eq]
      · have hmore : line ++ c :: rest = line ++ [c] ++ rest := by simp
        rw [linesFrom, if_neg hc, ih (hmore ▸ h), firstLine_cons hc]
        simp

theorem linesFrom_feed (line body rest : List Char) :
    linesFrom line (body ++ '\n' :: rest) = linesFrom line (body ++ ['\n']) ++ lines rest := by
  induction body generalizing line with
  | nil => simp [linesFrom, lines]
  | cons c body ih =>
      rw [List.cons_append, List.cons_append, linesFrom, linesFrom]
      split <;> simp [ih]

theorem length_linesFrom_feed (line body : List Char) :
    (linesFrom line (body ++ ['\n'])).length = body.count '\n' + 1 := by
  induction body generalizing line with
  | nil => simp [linesFrom]
  | cons c body ih =>
      rw [List.cons_append, linesFrom, List.count_cons]
      split
      · next hc => simp [hc, ih]
      · next hc => simp [hc, ih]

theorem linesAbove_cases (before : List Char) :
    linesAbove before = [] ∨ ∃ body, linesAbove before = body ++ ['\n'] := by
  induction before using List.reverseRecOn with
  | nil => exact .inl linesAbove_nil
  | append_singleton before c ih =>
      by_cases hc : c = '\n'
      · subst hc
        exact .inr ⟨before, linesAbove_concat_feed before⟩
      · rwa [linesAbove_concat hc]

theorem count_linesAbove (before : List Char) :
    (linesAbove before).count '\n' = before.count '\n' := by
  have hcount := congrArg (List.count '\n') (linesAbove_append_lastLine before)
  rwa [List.count_append, List.count_eq_zero.mpr (feed_notMem_lastLine before)] at hcount

/-- The lines above end where the rest begins. -/
theorem lines_linesAbove_append (before rest : List Char) :
    ∃ above, lines (linesAbove before ++ rest) = above ++ lines rest ∧
      above.length = before.count '\n' := by
  rw [← count_linesAbove]
  rcases linesAbove_cases before with hnil | ⟨body, hbody⟩
  · exact ⟨[], by simp [hnil], by simp [hnil]⟩
  · refine ⟨linesFrom [] (body ++ ['\n']), ?_, ?_⟩
    · rw [hbody, List.append_assoc]
      exact linesFrom_feed [] body rest
    · simp [hbody, length_linesFrom_feed]

/-- The line in which a text is cut. There is none if the cut comes after the last line feed and
nothing comes after the cut. -/
theorem getElem?_lines {before after : List Char} (h : FeedsOnly (before ++ after)) :
    (lines (before ++ after))[before.count '\n']? =
      if lastLine before ++ after = [] then none
      else some (lastLine before ++ firstLine after) := by
  obtain ⟨above, habove, hlength⟩ := lines_linesAbove_append before (lastLine before ++ after)
  rw [← List.append_assoc, linesAbove_append_lastLine] at habove
  have hrest : FeedsOnly (lastLine before ++ after) := by
    rw [← linesAbove_append_lastLine before, List.append_assoc] at h
    exact h.of_append
  rw [habove, ← hlength, List.getElem?_append_right (Nat.le_refl _), Nat.sub_self,
    ← List.head?_eq_getElem?, lines, linesFrom_append (feed_notMem_lastLine before)]
  exact head?_linesFrom hrest

theorem eq_of_getElem?_lines {before after shown : List Char} (h : FeedsOnly (before ++ after))
    (hshown : (lines (before ++ after))[before.count '\n']? = some shown) :
    lastLine before ++ after ≠ [] ∧ shown = lastLine before ++ firstLine after := by
  rw [getElem?_lines h] at hshown
  split at hshown
  · cases hshown
  · next hsome => exact ⟨hsome, (Option.some.inj hshown).symm⟩

end AppendLowering.Text
