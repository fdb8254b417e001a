import AppendLowering.Proofs.Text.Boundaries
import AppendLowering.Source.Map

/-!
# Where lines begin

The line starts of a text are the position zero and the positions just after
its line feeds, in increasing order. Positions count bytes. A file keeps its
line starts as words, which changes none of them if words can count the bytes
of its text.
-/

namespace AppendLowering

/-- The positions are those at which the lines of the text begin, in order. -/
structure Text.LinesStartAt (text : List Char) (starts : List Nat) : Prop where
  increasing : starts.Pairwise (· < ·)
  mem_iff : ∀ position, position ∈ starts ↔
    position = 0 ∨ ∃ before after, text = before ++ '\n' :: after ∧
      position = Text.byteLength before + 1

namespace SourceFile

theorem mem_lineStartsFrom {start position : Nat} {text : List Char} :
    position ∈ lineStartsFrom start text ↔
      ∃ before after, text = before ++ '\n' :: after ∧
        position = start + Text.byteLength before + 1 := by
  induction text generalizing start with
  | nil => simp [lineStartsFrom]
  | cons c rest ih =>
      -- A line feed is the first character, or it stands after the first character.
      have hsplit : (∃ before after, c :: rest = before ++ '\n' :: after ∧
            position = start + Text.byteLength before + 1) ↔
          (c = '\n' ∧ position = start + 1) ∨
            position ∈ lineStartsFrom (start + c.utf8Size) rest := by
        rw [ih]
        constructor
        · rintro ⟨before, after, htext, rfl⟩
          rcases List.cons_eq_append_iff.mp htext with ⟨rfl, hhead⟩ | ⟨before, rfl, htail⟩
          · cases hhead
            exact .inl ⟨rfl, rfl⟩
          · refine .inr ⟨before, after, htail, ?_⟩
            simp only [Text.byteLength]
            omega
        · rintro (⟨rfl, rfl⟩ | ⟨before, after, rfl, rfl⟩)
          · exact ⟨[], rest, rfl, rfl⟩
          · refine ⟨c :: before, after, rfl, ?_⟩
            simp only [Text.byteLength]
            omega
      rw [hsplit, lineStartsFrom]
      by_cases hfeed : c = '\n'
      · subst hfeed
        simp [show Char.utf8Size '\n' = 1 by decide]
      · simp [hfeed]

theorem lt_of_mem_lineStartsFrom {start position : Nat} {text : List Char}
    (h : position ∈ lineStartsFrom start text) : start < position := by
  obtain ⟨before, after, -, rfl⟩ := mem_lineStartsFrom.mp h
  omega

theorem pairwise_lineStartsFrom (start : Nat) (text : List Char) :
    (lineStartsFrom start text).Pairwise (· < ·) := by
  induction text generalizing start with
  | nil => exact .nil
  | cons c rest ih =>
      rw [lineStartsFrom]
      split
      · exact .cons (fun _ => lt_of_mem_lineStartsFrom) (ih _)
      · exact ih _

theorem linesStartAt_lineStartsFrom (text : List Char) :
    Text.LinesStartAt text (0 :: lineStartsFrom 0 text) where
  increasing := .cons (fun _ => lt_of_mem_lineStartsFrom) (pairwise_lineStartsFrom 0 text)
  mem_iff position := by
    rw [List.mem_cons, mem_lineStartsFrom]
    simp only [Nat.zero_add]

theorem le_of_mem_lineStartsFrom {start position : Nat} {text : List Char}
    (h : position ∈ lineStartsFrom start text) : position ≤ start + Text.byteLength text := by
  obtain ⟨before, after, rfl, rfl⟩ := mem_lineStartsFrom.mp h
  rw [Text.byteLength_append, Text.byteLength_feed]
  omega

theorem toNat_lineStarts {text : String} (h : Text.byteLength text.toList < UInt32.size)
    (path : String) :
    (ofText path text).lineStarts.map UInt32.toNat = 0 :: lineStartsFrom 0 text.toList := by
  rw [ofText, List.map_map]
  refine (List.map_congr_left fun start hstart => ?_).trans (List.map_id _)
  apply UInt32.toNat_ofNat_of_lt'
  rcases List.mem_cons.mp hstart with rfl | hmem
  · exact Nat.zero_lt_of_lt h
  · exact Nat.lt_of_le_of_lt (le_of_mem_lineStartsFrom hmem) (by omega)

end SourceFile

end AppendLowering
