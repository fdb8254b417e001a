import AppendLowering.Diagnostic.Report
import AppendLowering.Proofs.Source.Columns

/-!
# Reports that cannot be shown

The span of a report is taken as it comes: it may be inverted or empty, end
past the text, go over several lines, or lie in a file that the map does not
know. A report is shown all the same, unless an end of its span lies inside a
character of a known file. Only a text of `2 ^ 32 - 1` bytes can have an end
whose line or column is no word.
-/

namespace AppendLowering

namespace SourceFile

/-- A position has a line and a column exactly if it does not lie inside a character. -/
theorem lineCol_cases (path : String) {text : String}
    (hlength : Text.byteLength text.toList < UInt32.size - 1) (position : UInt32) :
    (Text.Splits text.toList position.toNat ∧
      (ofText path text).lineCol position = .error .splitCharacter) ∨
    (¬ Text.Splits text.toList position.toNat ∧
      ∃ place, (ofText path text).lineCol position = .ok place) := by
  by_cases hsplits : Text.Splits text.toList position.toNat
  · exact .inl ⟨hsplits, lineCol_of_splits (by omega) hsplits⟩
  · obtain ⟨before, hbefore⟩ := (Text.exists_precedes_iff _ _).mpr hsplits
    exact .inr ⟨hsplits, _, (lineCol_eq_placeWords path hlength hbefore).1⟩

end SourceFile

theorem SourceMap.contains_of_get {map : SourceMap} {id : FileId} {file : SourceFile}
    (h : map.get id = .ok file) : map.contains id = true := by
  by_contra hunknown
  rw [(get_eq_error_iff map id).mpr (Bool.eq_false_iff.mpr hunknown)] at h
  cases h

namespace Report

variable {paint : Text.Paint} {report : Report} {map : SourceMap}

/-- An end of the span lies inside a character of a text. -/
def SplitsText (report : Report) (text : String) : Prop :=
  Text.Splits text.toList report.span.start.toNat ∨ Text.Splits text.toList report.span.stop.toNat

section

variable {text : String} (hlength : Text.byteLength text.toList < UInt32.size - 1)

include hlength

theorem body_of_splits (path : String) (h : report.SplitsText text) :
    report.body paint (.ofText path text) = .error .splitCharacter := by
  rcases SourceFile.lineCol_cases path hlength report.span.start with
    ⟨-, hstart⟩ | ⟨hstart, place, hplace⟩
  · rw [body, hstart]
    rfl
  · rw [body, hplace, SourceFile.lineCol_of_splits (by omega) (h.resolve_left hstart)]
    rfl

theorem exists_body_of_not_splits (paint : Text.Paint) (path : String)
    (h : ¬ report.SplitsText text) :
    ∃ shown, report.body paint (.ofText path text) = .ok shown := by
  rw [SplitsText, not_or] at h
  obtain ⟨-, start, hstart⟩ :=
    (SourceFile.lineCol_cases path hlength report.span.start).resolve_left fun hs => h.1 hs.1
  obtain ⟨-, stop, hstop⟩ :=
    (SourceFile.lineCol_cases path hlength report.span.stop).resolve_left fun hs => h.2 hs.1
  rw [body, hstart, hstop]
  exact ⟨_, rfl⟩

end

/-- The headline and the notes, around the part that shows the place. -/
def framed (paint : Text.Paint) (report : Report) (place : String) : String :=
  headline paint report ++ place ++
    String.join (report.notes.map fun text =>
      "  " ++ paint (.boldIn .cyan) "note:" ++ " " ++ text ++ "\n") ++ "\n"

theorem render_of_unknown (h : map.contains report.span.file = false) :
    report.render paint map = .ok (framed paint report "") := by
  rw [render, h]
  rfl

theorem render_of_get {file : SourceFile} (h : map.get report.span.file = .ok file) :
    report.render paint map = (report.body paint file).map (framed paint report) := by
  rw [render, SourceMap.contains_of_get h, if_pos rfl, h]
  change (report.body paint file >>= fun shown => .ok (framed paint report shown)) = _
  cases report.body paint file with
  | error fault => rfl
  | ok shown => rfl

/-- If the file of its span has a text of less than `2 ^ 32 - 1` bytes, a report is shown whatever
the span is, with one exception: the file is in the map, and the span starts or ends inside a
character of its text. -/
theorem render_fault_iff (additions : List SourceMap.Addition) (paint : Text.Paint)
    (report : Report)
    (hlength : ∀ file, (SourceMap.Ledger.run additions).map.get report.span.file = .ok file →
      Text.byteLength file.text.toList < UInt32.size - 1) :
    let map := (SourceMap.Ledger.run additions).map
    let cut := map.contains report.span.file = true ∧
      ∃ file, map.get report.span.file = .ok file ∧ report.SplitsText file.text
    ((∃ fault, report.render paint map = .error fault) ↔ cut) ∧
    (¬ cut → ∃ text, report.render paint map = .ok text) := by
  intro map cut
  cases hcontains : map.contains report.span.file with
  | false =>
      have hcut : ¬ cut := fun h => Bool.false_ne_true (hcontains.symm.trans h.1)
      rw [render_of_unknown hcontains]
      exact ⟨iff_of_false (by simp) hcut, fun _ => ⟨_, rfl⟩⟩
  | true =>
      obtain ⟨file, hfile⟩ := SourceMap.exists_get_of_contains hcontains
      have hcut : cut ↔ report.SplitsText file.text := by
        constructor
        · rintro ⟨-, file', hfile', hsplits⟩
          obtain rfl := Except.ok.inj (hfile.symm.trans hfile')
          exact hsplits
        · exact fun hsplits => ⟨hcontains, file, hfile, hsplits⟩
      rw [hcut, render_of_get hfile]
      by_cases hsplits : report.SplitsText file.text
      · rw [SourceMap.Ledger.eq_ofText_of_get hfile,
          body_of_splits (hlength file hfile) file.path hsplits]
        exact ⟨iff_of_true ⟨_, rfl⟩ hsplits, fun h => absurd hsplits h⟩
      · obtain ⟨shown, hshown⟩ :=
          exists_body_of_not_splits (hlength file hfile) paint file.path hsplits
        rw [← SourceMap.Ledger.eq_ofText_of_get hfile] at hshown
        rw [hshown]
        exact ⟨iff_of_false (by simp [Except.map]) hsplits, fun _ => ⟨_, rfl⟩⟩

/-- A report on a span, with nothing to say. -/
def bare (start stop : UInt32) : Report :=
  { severity := .error, code := "Z0001", message := "m", span := ⟨start, stop, ⟨0⟩⟩
    labels := [], notes := [] }

/-- A span that ends inside a character, and an inverted one that starts past the text. -/
theorem render_fault_iff_accented :
    let map := (SourceMap.Ledger.run SourceMap.accentedAdditions).map
    (∃ fault, (bare 0 6).render .escaped map = .error fault) ∧
    ∃ text, (bare 9 3).render .escaped map = .ok text := by
  intro map
  have hfile : map.get ⟨0⟩ = .ok (.ofText "a.zep" "é\n\nxß") := by decide +kernel
  have hbytes : Text.byteLength "é\n\nxß".toList < UInt32.size - 1 := by decide +kernel
  have hlength : ∀ file, map.get ⟨0⟩ = .ok file →
      Text.byteLength file.text.toList < UInt32.size - 1 := by
    intro file hfile'
    obtain rfl := Except.ok.inj (hfile.symm.trans hfile')
    exact hbytes
  constructor
  · refine (render_fault_iff _ .escaped (bare 0 6) hlength).1.mpr
      ⟨by decide +kernel, _, hfile, .inr ?_⟩
    rcases SourceFile.lineCol_cases "a.zep" hbytes 6 with ⟨hsplits, -⟩ | ⟨-, place, hplace⟩
    · exact hsplits
    · have herror : (SourceFile.ofText "a.zep" "é\n\nxß").lineCol 6 = .error .splitCharacter := by
        decide +kernel
      rw [herror] at hplace
      cases hplace
  · refine (render_fault_iff _ .escaped (bare 9 3) hlength).2 ?_
    rintro ⟨-, file, hfile', hsplits⟩
    obtain rfl := Except.ok.inj (hfile.symm.trans hfile')
    rcases hsplits with ⟨hpast, -⟩ | ⟨-, hboundary⟩
    · exact absurd hpast (by decide +kernel)
    · exact hboundary ⟨['é', '\n'], _, rfl, by decide +kernel⟩

/-- The end of a line of `2 ^ 32 - 1` characters is no place inside a character, but it cannot be
shown. -/
theorem render_overflows :
    Text.byteLength (SourceFile.longLine 4294967295).toList < UInt32.size ∧
    ¬ (bare 4294967295 4294967295).SplitsText (SourceFile.longLine 4294967295) ∧
    (bare 4294967295 4294967295).render .plain
        (SourceMap.single "a.zep" (SourceFile.longLine 4294967295)) = .error .overflow := by
  have hlength := SourceFile.byteLength_longLine 4294967295
  refine ⟨?_, ?_, ?_⟩
  · rw [hlength]
    decide
  · rintro (⟨hlt, -⟩ | ⟨hlt, -⟩) <;> exact Nat.lt_irrefl _ (hlength ▸ hlt)
  · rw [render_of_get (SourceMap.get_single _ _), body,
      SourceFile.lineCol_longLine rfl rfl "a.zep"]
    rfl

end Report

end AppendLowering
