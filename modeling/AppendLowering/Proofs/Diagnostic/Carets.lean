import AppendLowering.Proofs.Diagnostic.Faults
import AppendLowering.Proofs.Text.Digits

/-!
# Carets under the place

A place is shown by its source line and a line of carets below it. Both lines
have a margin: that of the source line holds the number of the line and grows
with it, that of the carets has a fixed width. A span that ends on its first
line is underlined character by character. Of a span that goes on, the carets
count the bytes of the line from the column on.
-/

namespace AppendLowering.Report

variable {paint : Text.Paint} {report : Report} {path text : String}

/-- The labels, a line each. -/
def labelLines (paint : Text.Paint) (report : Report) : String :=
  String.join (report.labels.map fun text =>
    "  " ++ paint (.boldIn .yellow) "label:" ++ " " ++ text ++ "\n")

/-- A source line with its number in the margin. -/
def sourceLine (paint : Text.Paint) (number : Nat) (line : List Char) : String :=
  margin paint (Text.padRight 3 (Nat.repr number)) ++ bar paint ++ String.ofList line

/-- A run of carets that begins at a column. -/
def caretLine (paint : Text.Paint) (column carets : Nat) : String :=
  "   " ++ bar paint ++ String.ofList (List.replicate (column - 1) ' ') ++
    paint (.boldIn .red) (String.ofList (List.replicate carets '^'))

/-- The lines that show a place. -/
def layout (paint : Text.Paint) (report : Report) (path : String) (place : Nat × Nat)
    (source carets : String) : String :=
  location paint path place ++ "   " ++ bar paint ++ "\n" ++ source ++ "\n" ++ carets ++
    "\n" ++ labelLines paint report

theorem excerpt_eq (line : List Char) (start stop : Nat × Nat) :
    excerpt paint line start stop =
      sourceLine paint start.1 line ++ "\n" ++
        caretLine paint start.2 (caretCount line start stop) ++ "\n" := by
  simp only [excerpt, sourceLine, caretLine, String.append_assoc]

theorem body_of_places {file : SourceFile} {words words' : UInt32 × UInt32} {start stop : Nat × Nat}
    {line : List Char} (hwords : file.lineCol report.span.start = .ok words)
    (hstart : words.map UInt32.toNat UInt32.toNat = start)
    (hwords' : file.lineCol report.span.stop = .ok words')
    (hstop : words'.map UInt32.toNat UInt32.toNat = stop)
    (hline : (Text.lines file.text.toList)[start.1 - 1]? = some line) :
    report.body paint file =
      .ok (layout paint report file.path start (sourceLine paint start.1 line)
        (caretLine paint start.2 (caretCount line start stop))) := by
  rw [body, hwords, hwords']
  simp only [bind, Except.bind, hstart, hstop, hline, excerpt_eq, layout, labelLines,
    String.append_assoc]
  rfl

/-- What is shown of a span that begins after `before`, in the words of the text. -/
theorem body_of_precedes (paint : Text.Paint) (path : String) {before after upTo : List Char}
    (hlength : Text.byteLength text.toList < UInt32.size - 1)
    (htext : text.toList = before ++ after)
    (hfeeds : Text.FeedsOnly text.toList)
    (hstart : report.span.start.toNat = Text.byteLength before)
    (hstop : Text.Precedes upTo text.toList report.span.stop.toNat)
    (hshown : Text.lastLine before ++ after ≠ []) :
    report.body paint (.ofText path text) =
      .ok (layout paint report path (Text.place before)
        (sourceLine paint (Text.place before).1 (Text.lastLine before ++ Text.firstLine after))
        (caretLine paint (Text.place before).2
          (caretCount (Text.lastLine before ++ Text.firstLine after) (Text.place before)
            (Text.place upTo)))) := by
  have hbefore : Text.Precedes before text.toList report.span.start.toNat := by
    rw [hstart, htext]
    exact Text.precedes_append before after
  obtain ⟨hwords, hplace⟩ := SourceFile.lineCol_eq_placeWords path hlength hbefore
  obtain ⟨hwords', hplace'⟩ := SourceFile.lineCol_eq_placeWords path hlength hstop
  apply body_of_places hwords hplace hwords' hplace'
  rw [htext] at hfeeds
  rw [Text.place_eq, Nat.add_sub_cancel, SourceFile.ofText, htext, Text.getElem?_lines hfeeds,
    if_neg hshown]

/-! ### The length of the run -/

theorem place_line_eq_iff (before covered : List Char) :
    (Text.place before).1 = (Text.place (before ++ covered)).1 ↔ '\n' ∉ covered := by
  simp [Text.place_eq, List.count_eq_zero]

/-- A span that ends on its first line has a caret for each of its characters. -/
theorem caretCount_within {before covered : List Char} (h : '\n' ∉ covered) (line : List Char) :
    caretCount line (Text.place before) (Text.place (before ++ covered)) =
      max 1 covered.length := by
  rw [caretCount, if_pos ((place_line_eq_iff _ _).mpr h), Text.place_eq, Text.place_eq,
    Text.lastLine_append h, List.length_append]
  congr 1
  omega

theorem caretCount_beyond {before covered : List Char} (h : '\n' ∈ covered) (line : List Char) :
    caretCount line (Text.place before) (Text.place (before ++ covered)) =
      max 1 (Text.byteLength line - (Text.place before).2) :=
  if_neg fun hsame => (place_line_eq_iff _ _).mp hsame h

theorem one_le_caretCount (line : List Char) (start stop : Nat × Nat) :
    1 ≤ caretCount line start stop := by
  rw [caretCount]
  split <;> exact Nat.le_max_left _ _

/-- When bytes less the column count the marked characters at the end of a line. -/
theorem bytes_count_marked_iff (lead marked : List Char) :
    max 1 (Text.byteLength (lead ++ marked) - (lead.length + 1)) = max 1 marked.length ↔
      Text.byteLength (lead ++ marked) = (lead ++ marked).length + 1 ∨
        marked.length ≤ 1 ∧
          marked.length + Text.byteLength (lead ++ marked) ≤ (lead ++ marked).length + 2 := by
  have hle := Text.length_le_byteLength (lead ++ marked)
  rw [List.length_append] at hle ⊢
  omega

/-- A span from one boundary of a text to a later one, the first line of which is shown. The text
is short enough for its places to be words. The carets begin at the column of the span. If the
span ends on the shown line, there is one for each of its characters, or one if there are none. If
the span goes on, the carets count bytes: as many as the shown line has beyond the column, or one
if there are none. This is the number of the characters that the span has on the shown line, or
one, exactly if the line has one byte more than characters, or if there is at most one such
character and the bytes come to one caret at most. -/
theorem body_underlines (paint : Text.Paint) (report : Report) (path text : String)
    (before covered after shown : List Char)
    (hlength : Text.byteLength text.toList < UInt32.size - 1)
    (htext : text.toList = before ++ covered ++ after)
    (hstart : report.span.start.toNat = Text.byteLength before)
    (hstop : report.span.stop.toNat = Text.byteLength (before ++ covered))
    (hfeeds : Text.FeedsOnly text.toList)
    (hshown : (Text.lines text.toList)[before.count '\n']? = some shown) :
    let number := before.count '\n' + 1
    let column := (Text.lastLine before).length + 1
    let marked := Text.firstLine covered
    ∃ carets : Nat,
      report.body paint (.ofText path text) =
        .ok (layout paint report path (number, column) (sourceLine paint number shown)
          (caretLine paint column carets)) ∧
      shown = Text.lastLine before ++ Text.firstLine (covered ++ after) ∧
      ('\n' ∉ covered → carets = max 1 marked.length) ∧
      ('\n' ∈ covered → carets = max 1 (Text.byteLength shown - column)) ∧
      (carets = max 1 marked.length ↔
        '\n' ∉ covered ∨ Text.byteLength shown = shown.length + 1 ∨
          marked.length ≤ 1 ∧ marked.length + Text.byteLength shown ≤ shown.length + 2) := by
  intro number column marked
  have hcut : text.toList = before ++ (covered ++ after) := by rw [htext, List.append_assoc]
  have hstops : Text.Precedes (before ++ covered) text.toList report.span.stop.toNat := by
    rw [hstop, htext]
    exact Text.precedes_append _ after
  obtain ⟨hsome, rfl⟩ := Text.eq_of_getElem?_lines (hcut ▸ hfeeds) (hcut ▸ hshown)
  have hbody := body_of_precedes paint path hlength hcut hfeeds hstart hstops hsome
  have hplace : Text.place before = (number, column) := Text.place_eq before
  by_cases hwithin : '\n' ∉ covered
  · rw [caretCount_within hwithin, hplace] at hbody
    have hmarked : max 1 covered.length = max 1 marked.length := by
      rw [show marked = covered from Text.firstLine_of_unbroken hwithin]
    exact ⟨_, hbody, rfl, fun _ => hmarked, fun h => absurd h hwithin,
      iff_of_true hmarked (.inl hwithin)⟩
  · -- The span has a line feed, so the shown line ends with the marked characters.
    have hbeyond := Classical.not_not.mp hwithin
    rw [caretCount_beyond hbeyond, hplace] at hbody
    refine ⟨_, hbody, rfl, fun h => absurd hbeyond h, fun _ => rfl, ?_⟩
    rw [Text.firstLine_append_of_feed hbeyond, bytes_count_marked_iff]
    exact ⟨.inr, fun h => h.resolve_left hwithin⟩

/-- Two characters are marked, and the five bytes after the first character make four carets. -/
theorem body_underlines_accented :
    ∃ carets : Nat,
      (bare 1 7).body .plain (.ofText "a.zep" "aé→\nb") =
        .ok (layout .plain (bare 1 7) "a.zep" (1, 2) (sourceLine .plain 1 "aé→".toList)
          (caretLine .plain 2 carets)) ∧
      carets = 4 ∧ carets ≠ max 1 (Text.firstLine "é→\n".toList).length := by
  obtain ⟨carets, hbody, -, -, hbeyond, hexact⟩ :=
    body_underlines .plain (bare 1 7) "a.zep" "aé→\nb" ['a'] "é→\n".toList ['b'] "aé→".toList
      (by decide +kernel) (by decide +kernel) (by decide +kernel) (by decide +kernel)
      (by decide +kernel) (by decide +kernel)
  refine ⟨carets, hbody, hbeyond (by decide +kernel), ?_⟩
  rw [ne_eq, hexact]
  decide +kernel

/-- A span goes from the first character of a line into the next line. Both characters of the line
belong to it, but there is one caret. -/
theorem body_underlines_one_short :
    Text.sliceBytes "ab\ncd".toList 0 4 = some "ab\nc".toList ∧
    (bare 0 4).body .plain (.ofText "a.zep" "ab\ncd") =
      .ok (layout .plain (bare 0 4) "a.zep" (1, 1) (sourceLine .plain 1 "ab".toList)
        (caretLine .plain 1 1)) ∧
    (bare 0 4).body .plain (.ofText "a.zep" "ab\ncd") ≠
      .ok (layout .plain (bare 0 4) "a.zep" (1, 1) (sourceLine .plain 1 "ab".toList)
        (caretLine .plain 1 (max 1 (Text.firstLine "ab\nc".toList).length))) := by
  decide +kernel

/-! ### The place of the run -/

theorem bar_plain : bar .plain = "|  " := by
  decide +kernel

theorem length_padRight (width : Nat) (text : String) :
    (Text.padRight width text).length = max width text.length := by
  rw [Text.padRight, String.length_append, String.length_ofList, List.length_replicate]
  omega

/-- A number in the margin stays on its line. -/
theorem unbroken_padRight_repr (width n : Nat) :
    Text.Unbroken (Text.padRight width (Nat.repr n)) := by
  have hdigits : Text.Unbroken (Nat.repr n) :=
    .of_chars (by decide) fun _ => Text.isDigit_of_mem_repr
  apply hdigits.append
  simp [Text.Unbroken]

theorem length_repr_le_three_iff (n : Nat) : (Nat.repr n).length ≤ 3 ↔ n < 1000 := by
  rw [Nat.repr_eq_ofList_toDigits, String.length_ofList,
    Nat.length_toDigits_le_iff (by decide) (by decide)]

theorem toList_caretLine_plain (column carets : Nat) :
    (caretLine .plain column carets).toList =
      "   |  ".toList ++ List.replicate (column - 1) ' ' ++ List.replicate carets '^' := by
  simp [caretLine, bar_plain, Text.Paint.plain]

theorem sourceLine_plain (number : Nat) (line : List Char) :
    sourceLine .plain number line =
      Text.padRight 3 (Nat.repr number) ++ "|  " ++ String.ofList line := by
  rw [sourceLine, bar_plain]
  rfl

theorem caret_mem_caretLine {carets : Nat} (h : 1 ≤ carets) (column : Nat) :
    '^' ∈ (caretLine .plain column carets).toList := by
  rw [toList_caretLine_plain, List.mem_append, List.mem_replicate]
  exact .inr ⟨by omega, rfl⟩

theorem idxOf_caretLine_plain {carets : Nat} (h : 1 ≤ carets) (column : Nat) :
    (caretLine .plain column carets).toList.idxOf '^' = column - 1 + 6 := by
  obtain ⟨more, rfl⟩ : ∃ more, carets = more + 1 := ⟨carets - 1, by omega⟩
  rw [toList_caretLine_plain, List.idxOf_append_of_notMem (by simp), List.replicate_succ,
    List.idxOf_cons_self]
  simp

/-- A span begins at a character that is no line feed, on a line of any number. The text has less
than `2 ^ 32 - 1` bytes. Where styles are not shown, the first caret has the index of this character
in the source line above it exactly if the number of the line has three digits at most. Each further
digit moves the character one further to the right. -/
theorem body_points (report : Report) (path text : String) (before rest : List Char) (c : Char)
    (hlength : Text.byteLength text.toList < UInt32.size - 1)
    (htext : text.toList = before ++ c :: rest) (hc : c ≠ '\n')
    (hfeeds : Text.FeedsOnly text.toList)
    (hstart : report.span.start.toNat = Text.byteLength before)
    (hstop : ¬ Text.Splits text.toList report.span.stop.toNat) :
    let number := before.count '\n' + 1
    let lead := Text.lastLine before
    let gutter := Text.padRight 3 (Nat.repr number) ++ "|  "
    let source := gutter ++ String.ofList (lead ++ c :: Text.firstLine rest)
    ∃ below : String,
      report.body .plain (.ofText path text) =
        .ok (layout .plain report path (number, lead.length + 1) source below) ∧
      Text.Unbroken source ∧ Text.Unbroken below ∧ '^' ∈ below.toList ∧
      (below.toList.idxOf '^' = gutter.length + lead.length ↔ number < 1000) ∧
      gutter.length + lead.length = below.toList.idxOf '^' + ((Nat.repr number).length - 3) := by
  intro number lead gutter source
  obtain ⟨upTo, hupTo⟩ := (Text.exists_precedes_iff _ _).mpr hstop
  have hbody := body_of_precedes .plain path hlength htext hfeeds hstart hupTo (by simp)
  rw [Text.firstLine_cons hc, Text.place_eq before, sourceLine_plain] at hbody
  have hcarets := one_le_caretCount (lead ++ c :: Text.firstLine rest) (number, lead.length + 1)
    (Text.place upTo)
  have hindex := idxOf_caretLine_plain hcarets (lead.length + 1)
  have hgutter : gutter.length = max 3 (Nat.repr number).length + 3 := by
    rw [String.length_append, length_padRight]
    rfl
  have hdigits := length_repr_le_three_iff number
  refine ⟨_, hbody, ?_, ?_, ?_, ?_, ?_⟩
  · apply ((unbroken_padRight_repr 3 number).append (by decide)).append
    simp [Text.Unbroken, lead, Text.feed_notMem_lastLine, Text.feed_notMem_firstLine, Ne.symm hc]
  · simp [Text.Unbroken, toList_caretLine_plain]
  · exact caret_mem_caretLine hcarets _
  · rw [hindex, hgutter]
    omega
  · rw [hindex, hgutter]
    omega

/-- The span is inverted, and there are wide characters before it. -/
theorem body_points_accented :
    ∃ below : String,
      (bare 7 2).body .plain (.ofText "a.zep" "a\néé x\n") =
        .ok (layout .plain (bare 7 2) "a.zep" (2, 4) "2  |  éé x" below) ∧
      '^' ∈ below.toList ∧ below.toList.idxOf '^' = "2  |  éé x".toList.idxOf 'x' := by
  obtain ⟨below, hbody, -, -, hcaret, halign, -⟩ :=
    body_points (bare 7 2) "a.zep" "a\néé x\n" "a\néé ".toList ['\n'] 'x' (by decide +kernel)
      (by decide +kernel) (by decide) (by decide +kernel) (by decide +kernel)
      ((Text.exists_precedes_iff _ _).mp ⟨"a\n".toList, "éé x\n".toList, by decide +kernel⟩)
  refine ⟨below, hbody, hcaret, ?_⟩
  rw [halign.mpr (by decide +kernel)]
  decide +kernel

/-- A character below a number of empty lines. -/
def farDown (n : Nat) : String := String.ofList (List.replicate n '\n' ++ ['x'])

theorem place_replicate_feed (n : Nat) : Text.place (List.replicate n '\n') = (n + 1, 1) := by
  induction n with
  | zero => rfl
  | succ n ih => rw [List.replicate_succ', Text.place_concat, ih, Text.advance, if_pos rfl]

theorem byteLength_replicate_feed (n : Nat) : Text.byteLength (List.replicate n '\n') = n := by
  induction n with
  | zero => rfl
  | succ n ih => rw [List.replicate_succ, Text.byteLength_feed, ih]

theorem body_farDown {n : Nat} (hn : n + 1 < UInt32.size - 1) (hstart : report.span.start.toNat = n)
    (hstop : report.span.stop.toNat = n + 1) :
    report.body .plain (.ofText path (farDown n)) =
      .ok (layout .plain report path (n + 1, 1) (sourceLine .plain (n + 1) ['x'])
        (caretLine .plain 1 1)) := by
  have htext : (farDown n).toList = List.replicate n '\n' ++ ['x'] := String.toList_ofList
  have hfeeds : Text.FeedsOnly (farDown n).toList := by
    intro hreturn
    have hmem : '\r' ∈ (farDown n).toList := hreturn.subset (by simp)
    simp [htext] at hmem
  have hlength : Text.byteLength (farDown n).toList = n + 1 := by
    rw [htext, Text.byteLength_append, byteLength_replicate_feed]
    rfl
  have hplace := place_replicate_feed n
  have hlast : Text.lastLine (List.replicate n '\n') = [] := by
    rw [Text.place_eq] at hplace
    exact List.eq_nil_of_length_eq_zero (by simpa using congrArg Prod.snd hplace)
  have hbody := body_of_precedes .plain path (by rwa [hlength]) htext hfeeds
    (hstart.trans (byteLength_replicate_feed n).symm)
    (Text.precedes_of_past_end (hlength.trans hstop.symm).le) (by simp)
  rw [htext, caretCount_within (by simp), hplace, hlast] at hbody
  exact hbody

/-- On line 1000 the caret stands to the left of the character. -/
theorem body_points_left :
    (bare 999 1000).body .plain (.ofText "a.zep" (farDown 999)) =
      .ok (layout .plain (bare 999 1000) "a.zep" (1000, 1) "1000|  x" "   |  ^") ∧
    "   |  ^".toList.idxOf '^' = 6 ∧ "1000|  x".toList.idxOf 'x' = 7 := by
  refine ⟨?_, by decide +kernel⟩
  have hsource : sourceLine .plain 1000 ['x'] = "1000|  x" := by decide +kernel
  have hcarets : caretLine .plain 1 1 = "   |  ^" := by decide +kernel
  rw [← hsource, ← hcarets]
  exact body_farDown (by decide) rfl rfl

end AppendLowering.Report
