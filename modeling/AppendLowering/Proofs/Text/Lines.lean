import AppendLowering.Text.Lines

/-!
# Texts of one line

A text without line feeds stays in one line, wherever it is written. Lines that
are written one after the other, each ended by a line feed, are the lines of
the text that results.
-/

namespace AppendLowering.Text

/-- The text has no line feed. -/
def Unbroken (text : String) : Prop := '\n' ∉ text.toList

instance (text : String) : Decidable (Unbroken text) :=
  inferInstanceAs (Decidable ('\n' ∉ text.toList))

namespace Unbroken

theorem of_chars {text : String} {allowed : Char → Bool} (hfeed : allowed '\n' = false)
    (h : ∀ c ∈ text.toList, allowed c = true) : Unbroken text := by
  intro hmem
  have hallowed := h '\n' hmem
  simp [hfeed] at hallowed

theorem append {text text' : String} (h : Unbroken text) (h' : Unbroken text') :
    Unbroken (text ++ text') := by
  rw [Unbroken, String.toList_append, List.mem_append, not_or]
  exact ⟨h, h'⟩

theorem intercalate {separator : String} (hseparator : Unbroken separator) {parts : List String}
    (h : ∀ part ∈ parts, Unbroken part) : Unbroken (separator.intercalate parts) := by
  rw [Unbroken, String.toList_intercalate]
  induction parts with
  | nil => simp
  | cons part rest ih =>
      rw [List.forall_mem_cons] at h
      cases rest with
      | nil => simpa [Unbroken] using h.1
      | cons other others =>
          have hrest := ih h.2
          rw [List.map_cons, List.map_cons, List.intercalate_cons_cons]
          simp only [List.mem_append, not_or]
          exact ⟨⟨h.1, hseparator⟩, hrest⟩

end Unbroken

theorem linesFrom_append {text : List Char} (h : '\n' ∉ text) (line rest : List Char) :
    linesFrom line (text ++ rest) = linesFrom (line ++ text) rest := by
  induction text generalizing line with
  | nil => simp
  | cons c text ih =>
      rw [List.mem_cons, not_or] at h
      rw [List.cons_append, linesFrom, if_neg (Ne.symm h.1), ih h.2]
      simp

/-- Lines that end in line feeds, and have none besides, are found again. -/
theorem lines_flatMap {written : List (List Char)}
    (h : ∀ line ∈ written, '\n' ∉ line ∧ line.getLast? ≠ some '\r') :
    lines (written.flatMap (· ++ ['\n'])) = written := by
  induction written with
  | nil => rfl
  | cons line rest ih =>
      rw [List.forall_mem_cons] at h
      have hkept : dropCarriageReturn line = line := if_neg h.1.2
      have hrest := ih h.2
      rw [lines] at hrest ⊢
      rw [List.flatMap_cons, List.append_assoc, linesFrom_append h.1.1, List.singleton_append,
        linesFrom, if_pos rfl, List.nil_append, hkept, hrest]

end AppendLowering.Text
