import AppendLowering.Proofs.Source.Interning
import AppendLowering.Proofs.Text.Boundaries
import AppendLowering.Proofs.Text.Place

/-!
# Lines and columns of positions

A position is looked up among the line starts by halving, and the rest of the
way is counted in characters. The answer is the place that a walk over the text
before the position reaches. So later positions are at later places. Lines and
columns are words that count from one, so a text must be one byte shorter than
its positions allow: the end of a single line of `2 ^ 32 - 1` characters has no
column.
-/

namespace AppendLowering

namespace Text

/-- Of two texts that a text begins with, the longer one leads to the later place. -/
theorem Precedes.place_lt {text before before' : List Char} {position position' : Nat}
    (h : Precedes before text position) (h' : Precedes before' text position')
    (hlt : byteLength before < byteLength before') :
    toLex (place before) < toLex (place before') := by
  obtain ⟨after, htext, -⟩ := h
  obtain ⟨after', htext', -⟩ := h'
  rcases List.append_eq_append_iff.mp (htext.symm.trans htext') with
    ⟨between, rfl, -⟩ | ⟨between, rfl, -⟩
  · apply Text.place_lt
    rintro rfl
    simp at hlt
  · rw [byteLength_append] at hlt
    omega

theorem Precedes.byteLength_eq {text before before' : List Char} {position position' : Nat}
    (h : Precedes before text position) (h' : Precedes before' text position')
    (hsame : place before = place before') : byteLength before = byteLength before' := by
  apply Nat.le_antisymm <;> apply Nat.not_lt.mp <;> intro hlt
  · exact (h'.place_lt h hlt).ne (by rw [hsame])
  · exact (h.place_lt h' hlt).ne (by rw [hsame])

/-- A character adds one to the line or to the column, or it takes the column back to one. -/
theorem place_add_le (before : List Char) :
    (place before).1 + (place before).2 ≤ before.length + 2 := by
  induction before using List.reverseRecOn with
  | nil => simp [place]
  | append_singleton before c ih =>
      have hcolumn : 1 ≤ (place before).2 := by simp [place_eq]
      rw [place_concat, advance, List.length_append, List.length_singleton]
      split <;> simp only <;> omega

end Text

namespace SourceFile

theorem getElem?_of_drop {α : Type} {entries upper : List α} {n : Nat}
    (h : entries.drop n = upper) (i : Nat) {entry : α} (hentry : upper[i]? = some entry) :
    entries[n + i]? = some entry := by
  rw [← List.getElem?_drop, h, hentry]

/-- Halving finds the place where the entries that pass a test end. -/
theorem partitionPoint_eq {α : Type} {test : α → Bool} {entries : List α} {n : Nat}
    (hn : n ≤ entries.length)
    (h : ∀ i entry, entries[i]? = some entry → (test entry = true ↔ i < n)) :
    partitionPoint test entries = n := by
  fun_induction partitionPoint test entries generalizing n with
  | case1 entries hdrop =>
      have hlength := List.drop_eq_nil_iff.mp hdrop
      omega
  | case2 entries middle upper hdrop htest ih =>
      -- The middle entry passes, and the end of those that pass lies above it.
      have hlength := congrArg List.length hdrop
      rw [List.length_drop, List.length_cons] at hlength
      have hlt := (h _ _ (getElem?_of_drop hdrop 0 rfl)).mp htest
      have hupper : partitionPoint test upper = n - (entries.length / 2 + 1) := by
        apply ih
        · omega
        · intro i entry hentry
          rw [h _ _ (getElem?_of_drop hdrop (i + 1) hentry)]
          omega
      omega
  | case3 entries middle upper hdrop htest ih =>
      have hle : n ≤ entries.length / 2 :=
        Nat.not_lt.mp fun hlt => htest ((h _ _ (getElem?_of_drop hdrop 0 rfl)).mpr hlt)
      apply ih
      · rw [List.length_take]
        omega
      · intro i entry hentry
        rw [List.getElem?_take] at hentry
        split at hentry
        · exact h i entry hentry
        · cases hentry

theorem lineStartsFrom_append (start : Nat) (before after : List Char) :
    lineStartsFrom start (before ++ after) =
      lineStartsFrom start before ++ lineStartsFrom (start + Text.byteLength before) after := by
  induction before generalizing start with
  | nil => rfl
  | cons c before ih =>
      simp only [List.cons_append, lineStartsFrom, ih, Text.byteLength, Nat.add_assoc]
      split <;> rfl

theorem length_lineStartsFrom (start : Nat) (text : List Char) :
    (lineStartsFrom start text).length = text.count '\n' := by
  induction text generalizing start with
  | nil => rfl
  | cons c rest ih =>
      rw [lineStartsFrom, List.count_cons]
      split
      · next hc => simp [hc, ih]
      · next hc => simp [hc, ih]

/-- The last of the line starts is where the last line begins. -/
theorem getElem?_lineStarts (before : List Char) :
    (0 :: lineStartsFrom 0 before)[before.count '\n']? =
      some (Text.byteLength (Text.linesAbove before)) := by
  induction before using List.reverseRecOn with
  | nil => rfl
  | append_singleton before c ih =>
      rw [lineStartsFrom_append, Nat.zero_add]
      by_cases hc : c = '\n'
      · subst hc
        have hlast : lineStartsFrom (Text.byteLength before) ['\n'] =
            [Text.byteLength (before ++ ['\n'])] := by
          simp [lineStartsFrom, Text.byteLength]
        rw [hlast, Text.linesAbove_concat_feed, List.count_append, List.count_singleton_self,
          List.getElem?_cons_succ, ← length_lineStartsFrom 0 before]
        simp
      · have hnone : lineStartsFrom (Text.byteLength before) [c] = [] := by
          simp [lineStartsFrom, hc]
        rw [hnone, Text.linesAbove_concat hc, List.append_nil, ← ih]
        simp [hc]

theorem number_of_lt {count : Nat} (h : count + 1 < UInt32.size) :
    number count = .ok (UInt32.ofNat (count + 1)) := by
  have hcount : (UInt32.ofNat count).toNat = count :=
    UInt32.toNat_ofNat_of_lt' (Nat.lt_of_succ_lt h)
  have hnext : Word.next? (UInt32.ofNat count) = some (UInt32.ofNat (count + 1)) := by
    rw [Word.next?_eq_some_iff, hcount]
    exact UInt32.toNat_ofNat_of_lt' h
  rw [number, hnext]

theorem number_of_eq {count : Nat} (h : count + 1 = UInt32.size) :
    number count = .error .overflow := by
  have hnone : Word.next? (UInt32.ofNat count) = none := by
    rw [Word.next?_eq_none_iff, UInt32.toNat_ofNat_of_lt' (by omega), h]
  rw [number, hnone]

section

variable {path text : String} {before after : List Char} {position : UInt32}

theorem getElem?_toNat_lineStarts (hlength : Text.byteLength text.toList < UInt32.size)
    (path : String) (i : Nat) :
    ((ofText path text).lineStarts[i]?).map UInt32.toNat =
      (0 :: lineStartsFrom 0 text.toList)[i]? := by
  rw [← List.getElem?_map, toNat_lineStarts hlength]

/-- The line starts up to a position are those of the text before it. -/
theorem linesUpTo_eq (hlength : Text.byteLength text.toList < UInt32.size)
    (htext : text.toList = before ++ after) (hle : Text.byteLength before ≤ position.toNat)
    (hnext : ∀ next ∈ lineStartsFrom (Text.byteLength before) after, position.toNat < next) :
    (ofText path text).linesUpTo position = before.count '\n' + 1 := by
  have hstarts : 0 :: lineStartsFrom 0 text.toList =
      (0 :: lineStartsFrom 0 before) ++ lineStartsFrom (Text.byteLength before) after := by
    simp [htext, lineStartsFrom_append]
  have hcount : (0 :: lineStartsFrom 0 before).length = before.count '\n' + 1 := by
    rw [List.length_cons, length_lineStartsFrom]
  rw [linesUpTo, ← hcount]
  apply partitionPoint_eq
  · rw [ofText, List.length_map, hstarts, List.length_append]
    exact Nat.le_add_right _ _
  · intro i word hword
    have hstart := getElem?_toNat_lineStarts hlength path i
    rw [hword, Option.map_some, hstarts] at hstart
    rw [decide_eq_true_iff, UInt32.le_iff_toNat_le]
    by_cases hi : i < (0 :: lineStartsFrom 0 before).length
    · rw [List.getElem?_append_left hi] at hstart
      refine iff_of_true ?_ hi
      rcases List.mem_cons.mp (List.mem_of_getElem? hstart.symm) with hzero | hmem
      · rw [hzero]
        exact Nat.zero_le _
      · exact Nat.le_trans (le_of_mem_lineStartsFrom hmem) (by omega)
    · rw [List.getElem?_append_right (Nat.not_lt.mp hi)] at hstart
      refine iff_of_false ?_ hi
      exact Nat.not_le.mpr (hnext _ (List.mem_of_getElem? hstart.symm))

/-- A position is looked up in the line of the text before it. -/
theorem lineCol_eq (hlength : Text.byteLength text.toList < UInt32.size)
    (htext : text.toList = before ++ after) (hle : Text.byteLength before ≤ position.toNat)
    (hnext : ∀ next ∈ lineStartsFrom (Text.byteLength before) after, position.toNat < next) :
    (ofText path text).lineCol position =
      match Text.sliceBytes text.toList (Text.byteLength (Text.linesAbove before))
          (min position.toNat (Text.byteLength text.toList)) with
      | some slice => do return (← number (before.count '\n'), ← number slice.length)
      | none => .error .splitCharacter := by
  have hstart : ((ofText path text).lineStarts.getD (before.count '\n') 0).toNat =
      Text.byteLength (Text.linesAbove before) := by
    have hlast := getElem?_lineStarts before
    have hlt := (List.getElem?_eq_some_iff.mp hlast).1
    have hword := getElem?_toNat_lineStarts hlength path (before.count '\n')
    rw [htext, lineStartsFrom_append, ← List.cons_append, List.getElem?_append_left hlt, hlast,
      Option.map_eq_some_iff] at hword
    obtain ⟨word, hword, hvalue⟩ := hword
    rw [List.getD_eq_getElem?_getD, hword, Option.getD_some, hvalue]
  rw [lineCol, linesUpTo_eq hlength htext hle hnext, Nat.add_sub_cancel, hstart]
  rfl

/-- Where a text comes before the position, the line feeds in it and the characters of its last
line are counted. -/
theorem lineCol_of_precedes (hlength : Text.byteLength text.toList < UInt32.size)
    (h : Text.Precedes before text.toList position.toNat) :
    (ofText path text).lineCol position =
      do return (← number (before.count '\n'), ← number (Text.lastLine before).length) := by
  obtain ⟨after, htext, hbefore⟩ := h
  have hnext : ∀ next ∈ lineStartsFrom (Text.byteLength before) after,
      position.toNat < next := by
    intro next hmem
    -- A line feed after the position keeps it from lying past the end.
    obtain ⟨lead, rest, rfl, rfl⟩ := mem_lineStartsFrom.mp hmem
    rw [htext, Text.byteLength_append, Text.byteLength_append, Text.byteLength_feed] at hbefore
    omega
  have hcut := Text.sliceBytes_append (Text.linesAbove before) (Text.lastLine before) after
  rw [Text.linesAbove_append_lastLine, ← htext] at hcut
  rw [lineCol_eq hlength htext (by omega) hnext, ← hbefore, hcut]

/-- The words for the line and the column of a place. -/
def placeWords (place : Nat × Nat) : UInt32 × UInt32 := place.map UInt32.ofNat UInt32.ofNat

/-- Lines and columns of a text that is one byte shorter than its positions allow are words. -/
theorem lineCol_eq_placeWords (path : String)
    (hlength : Text.byteLength text.toList < UInt32.size - 1)
    (h : Text.Precedes before text.toList position.toNat) :
    (ofText path text).lineCol position = .ok (placeWords (Text.place before)) ∧
      (placeWords (Text.place before)).map UInt32.toNat UInt32.toNat = Text.place before := by
  have hbound : (Text.place before).1 < UInt32.size ∧ (Text.place before).2 < UInt32.size := by
    obtain ⟨after, htext, -⟩ := h
    have hplace := Text.place_add_le before
    have hbytes := Text.length_le_byteLength before
    rw [htext, Text.byteLength_append] at hlength
    simp only [Text.place_eq] at hplace ⊢
    omega
  constructor
  · rw [lineCol_of_precedes (by omega) h]
    rw [Text.place_eq] at hbound ⊢
    rw [number_of_lt hbound.1, number_of_lt hbound.2]
    rfl
  · exact Prod.ext (UInt32.toNat_ofNat_of_lt' hbound.1) (UInt32.toNat_ofNat_of_lt' hbound.2)

theorem lineCol_of_splits (hlength : Text.byteLength text.toList < UInt32.size)
    (h : Text.Splits text.toList position.toNat) :
    (ofText path text).lineCol position = .error .splitCharacter := by
  obtain ⟨before, c, after, htext, hlow, hhigh⟩ := h.inside
  have hnext : ∀ next ∈ lineStartsFrom (Text.byteLength before) (c :: after),
      position.toNat < next := by
    intro next hmem
    -- A line feed has one byte, so the split character is none.
    have hc : c ≠ '\n' := by
      rintro rfl
      rw [show Char.utf8Size '\n' = 1 by decide] at hhigh
      omega
    rw [lineStartsFrom, if_neg hc] at hmem
    exact Nat.lt_trans hhigh (lt_of_mem_lineStartsFrom hmem)
  have hcut : Text.sliceBytes (Text.linesAbove before ++ Text.lastLine before ++ c :: after)
      (Text.byteLength (Text.linesAbove before)) position.toNat = none := by
    apply Text.sliceBytes_inside <;> rwa [Text.linesAbove_append_lastLine]
  rw [Text.linesAbove_append_lastLine, ← htext] at hcut
  rw [lineCol_eq hlength htext (by omega) hnext, Nat.min_eq_left (Nat.le_of_lt h.1), hcut]

end

/-- A text of one line. -/
def longLine (n : Nat) : String := String.ofList (List.replicate n 'a')

theorem byteLength_longLine (n : Nat) : Text.byteLength (longLine n).toList = n := by
  rw [longLine, String.toList_ofList]
  induction n with
  | zero => rfl
  | succ n ih =>
      rw [List.replicate_succ, Text.byteLength, ih, show Char.utf8Size 'a' = 1 by decide,
        Nat.add_comm]

/-- The end of the longest line that positions can count has no column. -/
theorem lineCol_longLine {n : Nat} (hn : n + 1 = UInt32.size) {position : UInt32}
    (hposition : position.toNat = n) (path : String) :
    (ofText path (longLine n)).lineCol position = .error .overflow := by
  have hlength := byteLength_longLine n
  have hunbroken : '\n' ∉ (longLine n).toList := by simp [longLine]
  have hline : (Text.lastLine (longLine n).toList).length = n := by
    have hlast : Text.lastLine (longLine n).toList = (longLine n).toList :=
      Text.lastLine_append hunbroken []
    rw [hlast, longLine, String.toList_ofList, List.length_replicate]
  rw [lineCol_of_precedes (by omega) (Text.precedes_of_past_end (by omega)),
    List.count_eq_zero.mpr hunbroken, hline, number_of_eq hn,
    number_of_lt (show 0 + 1 < UInt32.size by decide)]
  rfl

end SourceFile

namespace SourceMap

theorem Ledger.run_files (additions : List Addition) :
    ∀ file ∈ (run additions).map.files.entries,
      ∃ addition ∈ additions, file = .ofText addition.path addition.text := by
  induction additions using List.reverseRecOn with
  | nil => simp [run, start, SourceMap.empty, Store.empty]
  | append_singleton additions last ih =>
      have hearlier : ∀ file ∈ (run additions).map.files.entries,
          ∃ addition ∈ additions ++ [last], file = .ofText addition.path addition.text := by
        intro file hfile
        obtain ⟨addition, hmem, hof⟩ := ih file hfile
        exact ⟨addition, List.mem_append_left _ hmem, hof⟩
      rw [run_concat, perform]
      rcases (run additions).map.add_cases last.path last.text with ⟨id, -, hadd⟩ | ⟨-, hadd⟩
      · simpa only [hadd] using hearlier
      · simp only [hadd, extended, Store.entries_push, List.mem_append, List.mem_singleton]
        rintro file (hfile | rfl)
        · simpa only [List.mem_append, List.mem_singleton] using hearlier file hfile
        · exact ⟨last, .inr rfl, rfl⟩

/-- A file of the map has the line starts of its text. -/
theorem Ledger.eq_ofText_of_get {additions : List Addition} {id : FileId} {file : SourceFile}
    (h : (run additions).map.get id = .ok file) : file = .ofText file.path file.text := by
  obtain ⟨addition, -, rfl⟩ :=
    run_files additions file (List.mem_of_getElem? (Store.get_eq_ok_iff.mp h))
  rfl

theorem lineCol_of_get {map : SourceMap} {id : FileId} {file : SourceFile}
    (h : map.get id = .ok file) (position : UInt32) :
    map.lineCol id position = file.lineCol position := by
  rw [lineCol, h]
  rfl

/-- Positions of a file of the map have the places of the texts before them, in words. -/
theorem Ledger.exists_lineCol {additions : List Addition} {id : FileId} {file : SourceFile}
    (hfile : (run additions).map.get id = .ok file)
    (hlength : Text.byteLength file.text.toList < UInt32.size - 1) {position : UInt32}
    {before : List Char} (hbefore : Text.Precedes before file.text.toList position.toNat) :
    ∃ line column, (run additions).map.lineCol id position = .ok (line, column) ∧
      (line.toNat, column.toNat) = Text.place before := by
  rw [lineCol_of_get hfile, eq_ofText_of_get hfile]
  obtain ⟨hline, hwords⟩ := SourceFile.lineCol_eq_placeWords file.path hlength hbefore
  exact ⟨_, _, hline, hwords⟩

/-- In a text of less than `2 ^ 32 - 1` bytes, the line and the column of a position are those of a
walk over the characters before it: the line feeds among these and one more, and the characters
since the last line feed and one more. Their sum exceeds the bytes of the text by two at most. Along
the boundaries of the text they increase, line before column, so no two boundaries are at the same
place. -/
theorem lineCol_eq_place (additions : List Addition) (id : FileId) (file : SourceFile)
    (hfile : (Ledger.run additions).map.get id = .ok file)
    (hlength : Text.byteLength file.text.toList < UInt32.size - 1) :
    let map := (Ledger.run additions).map
    let text := file.text.toList
    (∀ position : UInt32,
      Text.Boundary text position.toNat ∨ Text.byteLength text < position.toNat →
      ∃ before line column, Text.Precedes before text position.toNat ∧
        map.lineCol id position = .ok (line, column) ∧
        line.toNat = before.count '\n' + 1 ∧
        column.toNat = (Text.lastLine before).length + 1 ∧
        (line.toNat, column.toNat) = Text.place before ∧
        line.toNat + column.toNat ≤ Text.byteLength text + 2) ∧
    ∀ position position' : UInt32,
      Text.Boundary text position.toNat → Text.Boundary text position'.toNat →
      ∃ line column line' column' : UInt32, map.lineCol id position = .ok (line, column) ∧
        map.lineCol id position' = .ok (line', column') ∧
        (position < position' →
          toLex (line.toNat, column.toNat) < toLex (line'.toNat, column'.toNat)) ∧
        ((line, column) = (line', column') → position = position') := by
  intro map text
  constructor
  · intro position hposition
    obtain ⟨before, hbefore⟩ : ∃ before, Text.Precedes before text position.toNat := by
      rcases hposition with hboundary | hpast
      · obtain ⟨before, hbefore, -⟩ := hboundary.precedes
        exact ⟨before, hbefore⟩
      · exact ⟨text, Text.precedes_of_past_end hpast.le⟩
    obtain ⟨line, column, hplace, hwords⟩ := Ledger.exists_lineCol hfile hlength hbefore
    have hcounts := hwords.trans (Text.place_eq before)
    rw [Prod.mk.injEq] at hcounts
    refine ⟨before, line, column, hbefore, hplace, hcounts.1, hcounts.2, hwords, ?_⟩
    obtain ⟨after, htext, -⟩ := hbefore
    have hsum := Text.place_add_le before
    have hbytes := Text.length_le_byteLength before
    rw [← hwords] at hsum
    rw [htext, Text.byteLength_append]
    omega
  · intro position position' hposition hposition'
    obtain ⟨before, hbefore, hbytes⟩ := hposition.precedes
    obtain ⟨before', hbefore', hbytes'⟩ := hposition'.precedes
    obtain ⟨line, column, hplace, hwords⟩ := Ledger.exists_lineCol hfile hlength hbefore
    obtain ⟨line', column', hplace', hwords'⟩ := Ledger.exists_lineCol hfile hlength hbefore'
    refine ⟨line, column, line', column', hplace, hplace', fun hlt => ?_, fun hsame => ?_⟩
    · rw [hwords, hwords']
      apply hbefore.place_lt hbefore'
      rw [hbytes, hbytes']
      exact UInt32.lt_iff_toNat_lt.mp hlt
    · apply UInt32.toNat_inj.mp
      rw [← hbytes, ← hbytes']
      apply hbefore.byteLength_eq hbefore'
      rw [Prod.mk.injEq] at hsame
      rw [← hwords, ← hwords', hsame.1, hsame.2]

/-- A file with an empty line and characters of two bytes. -/
def accentedAdditions : List Addition := [{ path := "a.zep", text := "é\n\nxß" }]

theorem lineCol_eq_place_accented :
    let map := (Ledger.run accentedAdditions).map
    (map.lineCol (idAt 0) 5 = .ok (3, 2) ∧ map.lineCol (idAt 0) 9 = .ok (3, 3)) ∧
    (∃ before line column, Text.Precedes before "é\n\nxß".toList 9 ∧
      map.lineCol (idAt 0) 9 = .ok (line, column) ∧
      (line.toNat, column.toNat) = Text.place before) ∧
    ∃ line column line' column' : UInt32, map.lineCol (idAt 0) 2 = .ok (line, column) ∧
      map.lineCol (idAt 0) 5 = .ok (line', column') ∧
      toLex (line.toNat, column.toNat) < toLex (line'.toNat, column'.toNat) := by
  have hfile : (Ledger.run accentedAdditions).map.get (idAt 0) =
      .ok (.ofText "a.zep" "é\n\nxß") := by decide +kernel
  obtain ⟨hplaces, horder⟩ :=
    lineCol_eq_place accentedAdditions (idAt 0) _ hfile (by decide +kernel)
  refine ⟨by decide +kernel, ?_, ?_⟩
  · obtain ⟨before, line, column, hbefore, hplace, -, -, hwords, -⟩ :=
      hplaces 9 (.inr (by decide +kernel))
    exact ⟨before, line, column, hbefore, hplace, hwords⟩
  · obtain ⟨line, column, line', column', hplace, hplace', hlt, -⟩ :=
      horder 2 5 ⟨['é'], _, rfl, rfl⟩ ⟨['é', '\n', '\n', 'x'], _, rfl, rfl⟩
    exact ⟨line, column, line', column', hplace, hplace', hlt (by decide)⟩

/-- A map with a single file. -/
def single (path text : String) : SourceMap := (Ledger.run [{ path, text }]).map

theorem get_single (path text : String) :
    (single path text).get (idAt 0) = .ok (.ofText path text) := rfl

/-- A text of one line, whose positions are words, has an end whose column is not. -/
theorem lineCol_overflows :
    Text.byteLength (SourceFile.longLine 4294967295).toList < UInt32.size ∧
    Text.Boundary (SourceFile.longLine 4294967295).toList (4294967295 : UInt32).toNat ∧
    (single "a.zep" (SourceFile.longLine 4294967295)).lineCol (idAt 0) 4294967295 =
      .error .overflow := by
  have hlength := SourceFile.byteLength_longLine 4294967295
  refine ⟨?_, ⟨_, [], (List.append_nil _).symm, ?_⟩, ?_⟩
  · rw [hlength]
    decide
  · rw [hlength]
    rfl
  · rw [lineCol_of_get (get_single _ _)]
    exact SourceFile.lineCol_longLine rfl rfl "a.zep"

end SourceMap

end AppendLowering
