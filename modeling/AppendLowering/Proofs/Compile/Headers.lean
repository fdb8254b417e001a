import AppendLowering.Proofs.Compile.Names

/-!
# The headers of compiled statements

Headers are collected one by one, each of them unless it is there already, and
a rejection cuts the list back by its length. What is left in the end depends
on the accepted statements only: the extra headers of the configuration and
then the headers of the calls, each at its first place. The finished code
includes each of them once, before the first line.
-/

namespace AppendLowering

open Text (Unbroken)

variable {ρ : Type}

namespace Headers

theorem ofList_concat (headers : List Header) (header : Header) :
    ofList (headers ++ [header]) = (ofList headers).add header := by
  simp only [ofList, List.foldl_append, List.foldl_cons, List.foldl_nil]

/-- Adding headers in order keeps each of them at its first place. -/
theorem ofList_eq_eraseDups (headers : List Header) : ofList headers = headers.eraseDups := by
  induction headers using List.reverseRecOn with
  | nil => rfl
  | append_singleton headers header ih =>
      rw [ofList_concat, ih, List.eraseDups_append, add]
      by_cases hmem : header ∈ headers
      · simp [List.removeAll, hmem, List.mem_eraseDups]
      · simp [List.removeAll, hmem, List.mem_eraseDups, List.eraseDups_cons]

theorem foldl_add_ofList (headers more : List Header) :
    more.foldl add (ofList headers) = ofList (headers ++ more) := by
  simp only [ofList, List.foldl_append]

theorem nodup_ofList (headers : List Header) : (ofList headers).Nodup := by
  induction headers using List.reverseRecOn with
  | nil => exact List.nodup_nil
  | append_singleton headers header ih =>
      rw [ofList_concat, add]
      split
      · exact ih
      · next hnew => simpa using ih.concat hnew

end Headers

namespace Header

/-- The text of the line that includes a header. -/
def line (header : Header) : String :=
  if header.quoted then "#include \"" ++ header.path ++ "\"" else "#include <" ++ header.path ++ ">"

theorem directive_eq (header : Header) : header.directive = header.line ++ "\n" := by
  unfold directive line
  split
  · rw [String.append_assoc, String.append_assoc, String.append_assoc]
    rfl
  · rw [String.append_assoc, String.append_assoc, String.append_assoc]
    rfl

theorem unbroken_line {header : Header} (h : Unbroken header.path) : Unbroken header.line := by
  unfold line
  split
  · exact (Unbroken.append (by decide) h).append (by decide)
  · exact (Unbroken.append (by decide) h).append (by decide)

theorem getLast?_line (header : Header) : header.line.toList.getLast? ≠ some '\r' := by
  unfold line
  split <;> rw [String.toList_append, List.getLast?_append]
  · change some '"' ≠ some '\r'
    decide
  · change some '>' ≠ some '\r'
    decide

/-- A header is included by a line that begins like this. -/
theorem isPrefixOf_line (header : Header) :
    "#include ".toList.isPrefixOf header.line.toList = true := by
  unfold line
  split <;> simp [String.toList_append]

end Header

/-- The header that the call of an assignment needs. -/
def Assignment.header (assignment : Assignment) : Header := assignment.target.container.header

/-- Accepted assignments add the headers of their calls in order. -/
theorem Assigns.headers {assignments : List Assignment} {c d : Context} {lines : List Line}
    (h : Assigns assignments c lines d) :
    d.headers = (assignments.map Assignment.header).foldl Headers.add c.headers := by
  induction h with
  | nil c => rfl
  | @cons assignment rest c d e call lines lines' haccepted hcall _ ih =>
      have hcalled : (d.writeCall call).headers = c.headers.add assignment.header := by
        rw [← haccepted.value.callless.1, Assignment.header, ← hcall.container]
        rfl
      rw [ih, hcalled, List.map_cons, List.foldl_cons]

/-- There is one call for each accepted assignment, and the calls stand in the same order. -/
theorem Assigns.calls {assignments : List Assignment} {c d : Context} {lines : List Line}
    (h : Assigns assignments c lines d) :
    (lines.filterMap Line.call?).map RuntimeCall.container =
      assignments.map fun assignment => assignment.target.container := by
  induction h with
  | nil c => rfl
  | @cons assignment rest c d e call lines lines' haccepted hcall _ ih =>
      rw [List.filterMap_append, haccepted.value.callless.2, List.nil_append, List.map_cons, ← ih,
        ← hcall.container]
      rfl

namespace Context

/-- The empty line after the headers, if there are any. -/
def separator (c : Context) : List String := if c.headers.isEmpty then [] else [""]

/-- The finished code is written line by line: the headers, the empty line, the code. -/
theorem emit_eq (c : Context) :
    c.emit = String.join ((c.headers.map Header.line ++ c.separator).map (· ++ "\n")) ++
      c.code.text := by
  have hdirective : Header.directive = (· ++ "\n") ∘ Header.line := funext Header.directive_eq
  have hlines : Headers.emit c.headers =
      String.join ((c.headers.map Header.line).map (· ++ "\n")) := by
    rw [Headers.emit, List.map_map, hdirective]
  unfold emit separator
  cases hheaders : c.headers with
  | nil => simp [Headers.emit]
  | cons header rest =>
      have hnonempty : (Headers.emit (header :: rest)).isEmpty = false := by
        rw [Headers.emit, List.map_cons, String.join_cons, Header.directive_eq,
          String.isEmpty_eq_false_iff, Ne, String.append_eq_empty_iff, String.append_eq_empty_iff]
        simp
      rw [hheaders] at hlines
      rw [List.map_append, String.join_append, ← hlines]
      simp [hnonempty]

end Context

/-- No line of code begins like an inclusion. -/
theorem Line.not_isPrefixOf_render (line : Line) :
    "#include ".toList.isPrefixOf line.render.toList = false := by
  simp only [render_eq, statement, String.toList_append, List.append_assoc]
  unfold function
  split
  case h_14 c => cases c.container <;> simp only [Container.function] <;> rfl
  all_goals rfl

/-- The lines of the finished code, provided that headers and names have no line feeds. -/
theorem Context.linesOf_emit {c : Context} {lines : List Line}
    (hcode : c.code.text = Line.code lines)
    (hheaders : ∀ header ∈ c.headers, Unbroken header.path)
    (hlines : ∀ line ∈ lines, Unbroken line.render) :
    Text.linesOf c.emit = c.headers.map Header.line ++ c.separator ++ lines.map Line.render := by
  have hrendered : Line.code lines = String.join ((lines.map Line.render).map (· ++ "\n")) := by
    rw [Line.code, List.map_map]
    rfl
  have hwritten : c.emit = String.join
      ((c.headers.map Header.line ++ c.separator ++ lines.map Line.render).map (· ++ "\n")) := by
    rw [c.emit_eq, hcode, hrendered, ← String.join_append, ← List.map_append]
  rw [hwritten, Text.linesOf_join]
  simp only [List.forall_mem_append, List.forall_mem_map]
  refine ⟨⟨fun header hmem => ?_, ?_⟩, fun line hmem => ?_⟩
  · exact ⟨Header.unbroken_line (hheaders header hmem), header.getLast?_line⟩
  · unfold separator
    split <;> simp [Unbroken]
  · exact ⟨hlines line hmem, by simp [Line.getLast?_render]⟩

/-- The lines that include something are those of the headers, one for each of them. -/
theorem Context.filter_linesOf_emit {c : Context} {lines : List Line}
    (h : Text.linesOf c.emit =
      c.headers.map Header.line ++ c.separator ++ lines.map Line.render) :
    (Text.linesOf c.emit).filter (fun line => "#include ".toList.isPrefixOf line.toList) =
      c.headers.map Header.line := by
  have hincluded : (c.headers.map Header.line).filter
      (fun line => "#include ".toList.isPrefixOf line.toList) = c.headers.map Header.line := by
    rw [List.filter_eq_self, List.forall_mem_map]
    exact fun header _ => header.isPrefixOf_line
  have hseparator : c.separator.filter
      (fun line => "#include ".toList.isPrefixOf line.toList) = [] := by
    unfold separator
    split <;> rfl
  have hcode : (lines.map Line.render).filter
      (fun line => "#include ".toList.isPrefixOf line.toList) = [] := by
    rw [List.filter_eq_nil_iff, List.forall_mem_map]
    exact fun line _ => Bool.eq_false_iff.mp line.not_isPrefixOf_render
  rw [h, List.filter_append, List.filter_append, hincluded, hseparator, hcode, List.append_nil,
    List.append_nil]

/-- Temporaries have no line feeds in their names, so growth brings none in. -/
theorem Context.Grows.unbroken_names {c d : Context} (h : c.Grows d)
    (hc : ∀ name, c.symbols.contains name = true → Unbroken name) :
    ∀ name, d.symbols.contains name = true → Unbroken name := by
  obtain ⟨added, hadded, htemporary⟩ := h.symbols.names
  intro name hname
  obtain ⟨entry, hmem, hentry⟩ := List.any_eq_true.mp hname
  rw [hadded, List.mem_append] at hmem
  rcases hmem with hold | hnew
  · exact hc name (List.any_eq_true.mpr ⟨entry, hold, hentry⟩)
  · obtain ⟨number, hnumber⟩ := (htemporary entry hnew).2
    rw [← eq_of_beq hentry, hnumber]
    exact unbroken_temporaryName number

theorem Container.unbroken_header (container : Container) : Unbroken container.header.path := by
  have harray : Unbroken (Header.kernel "array").path := by decide
  have hobject : Unbroken (Header.kernel "object").path := by decide
  cases container with
  | var => exact harray
  | property => exact hobject
  | staticProperty => exact hobject

/-- The headers of the calls that statements make, in order and with repetitions. -/
def runtimeHeaders (statements : List Statement) : List Header :=
  (statements.flatMap Statement.assignments).map Assignment.header

/-- Whatever statements are compiled from a new context, the headers are those of the configuration
and then those of the accepted assignments, each where it comes first, and none of them twice.
Every call in the code has its header among them. The finished code includes them in this order,
one by one and before the code; where no name or path breaks a line, no other line includes
anything. -/
theorem compileStatements_headers (config : Config) {symbols : SymbolTable}
    (hsymbols : symbols.Reachable) (statements : List Statement) (log : Log) (own : ρ) :
    ∃ verdicts t, ∃ lines : List Line,
      verdicts.map Prod.fst = statements ∧
      Run ρ (.ofSymbols config symbols) verdicts t.context ∧
      compileStatements statements ⟨.ofSymbols config symbols, log, own⟩ =
        .ok (verdicts.filterMap Prod.snd) t ∧
      t.context.headers =
        (config.codegen.extraHeaders ++ runtimeHeaders (accepted verdicts)).eraseDups ∧
      t.context.headers.Nodup ∧
      config.codegen.extraHeaders.eraseDups <+: t.context.headers ∧
      t.context.code.text = Line.code lines ∧
      (lines.filterMap Line.call?).map (fun call => call.container.header) =
        runtimeHeaders (accepted verdicts) ∧
      (∀ call, Line.call call ∈ lines → call.container.header ∈ t.context.headers) ∧
      t.context.emit =
        String.join ((t.context.headers.map Header.line ++ t.context.separator).map (· ++ "\n")) ++
          t.context.code.text ∧
      ((∀ header ∈ config.codegen.extraHeaders, Unbroken header.path) →
        (∀ name, symbols.contains name = true → Unbroken name) →
        (∀ statement ∈ statements, ∀ assignment ∈ statement.assignments,
          Unbroken assignment.target.container.name) →
        Text.linesOf t.context.emit =
          t.context.headers.map Header.line ++ t.context.separator ++ lines.map Line.render ∧
        (Text.linesOf t.context.emit).filter
            (fun line => "#include ".toList.isPrefixOf line.toList) =
          t.context.headers.map Header.line) := by
  have hstart := Context.Reachable.ofSymbols hsymbols config
  obtain ⟨verdicts, t, hmap, run, hcompiled⟩ :=
    compileStatements_run statements ⟨.ofSymbols config symbols, log, own⟩ hstart
  obtain ⟨lines, hlines⟩ := run.assigns hstart
  have hlist : t.context.headers =
      .ofList (config.codegen.extraHeaders ++ runtimeHeaders (accepted verdicts)) := by
    rw [hlines.headers, ← Headers.foldl_add_ofList]
    rfl
  have hheaders : t.context.headers =
      (config.codegen.extraHeaders ++ runtimeHeaders (accepted verdicts)).eraseDups :=
    hlist.trans (Headers.ofList_eq_eraseDups _)
  have hcode : t.context.code.text = Line.code lines :=
    hlines.emits.code.trans String.empty_append
  have hcalls : (lines.filterMap Line.call?).map (fun call => call.container.header) =
      runtimeHeaders (accepted verdicts) := by
    have hcontainers := congrArg (List.map Container.header) hlines.calls
    rwa [List.map_map, List.map_map] at hcontainers
  refine ⟨verdicts, t, lines, hmap, run, hcompiled, hheaders, ?_, ?_, hcode, hcalls, ?_,
    t.context.emit_eq, ?_⟩
  · exact hlist ▸ Headers.nodup_ofList _
  · rw [hheaders, List.eraseDups_append]
    exact List.prefix_append _ _
  · intro call hcall
    rw [hheaders, List.mem_eraseDups, List.mem_append, ← hcalls]
    exact .inr (List.mem_map_of_mem (List.mem_filterMap.mpr ⟨_, hcall, rfl⟩))
  · intro hpaths hnames hcontainers
    have hincluded : ∀ header ∈ t.context.headers, Unbroken header.path := by
      intro header hmem
      rw [hheaders, List.mem_eraseDups, List.mem_append] at hmem
      rcases hmem with hextra | hruntime
      · exact hpaths header hextra
      · obtain ⟨assignment, -, rfl⟩ := List.mem_map.mp hruntime
        exact assignment.target.container.unbroken_header
    have haccepted : ∀ assignment ∈ (accepted verdicts).flatMap Statement.assignments,
        Unbroken assignment.target.container.name := by
      intro assignment hmem
      obtain ⟨statement, hstatement, hassignment⟩ := List.mem_flatMap.mp hmem
      exact hcontainers statement (hmap ▸ mem_of_accepted hstatement) assignment hassignment
    have hunbroken := hlines.unbroken hstart (hlines.emits.grows.unbroken_names hnames) haccepted
    have hfinished := Context.linesOf_emit hcode hincluded hunbroken
    exact ⟨hfinished, Context.filter_linesOf_emit hfinished⟩

/-- A configuration that repeats a header, and has one more under the path of a runtime header. -/
def repeatingConfig : Config :=
  .make false [] true 0
    { zts := false
      extraHeaders :=
        [.kernel "main", { path := "kernel/array.h", quoted := false }, .kernel "main"] }

/-- Appends of `obj` to containers of all kinds, and one in between that is rejected. -/
def mixedStatements : List Statement :=
  [Container.property "obj" "p", .var "ghost", .staticProperty "ce" "p", .var "obj"].map
    fun container =>
      { assignments := [⟨⟨container, []⟩, .var "obj" .synthetic, .synthetic⟩], span := .synthetic }

theorem unbroken_of_tracedContext :
    ∀ name, tracedContext.symbols.contains name = true → Unbroken name := by
  have hbound : tracedContext.symbols.names = [("obj", 0)] := rfl
  intro name hname
  obtain rfl : "obj" = name := by
    simpa [SymbolTable.contains, Bindings.contains, hbound] using hname
  decide

theorem compileStatements_headers_mixed :
    ∃ (verdicts : List (Statement × Option Diagnostic)) (t : CompileState Unit) (lines : List Line),
      verdicts.map Prod.fst = mixedStatements ∧
      t.context.headers =
        (repeatingConfig.codegen.extraHeaders ++ runtimeHeaders (accepted verdicts)).eraseDups ∧
      t.context.headers = [.kernel "main", { path := "kernel/array.h", quoted := false },
        .kernel "object", .kernel "array"] ∧
      t.context.code.text = Line.code lines ∧
      (Text.linesOf t.context.emit).filter
          (fun line => "#include ".toList.isPrefixOf line.toList) =
        ["#include \"kernel/main.h\"", "#include <kernel/array.h>", "#include \"kernel/object.h\"",
          "#include \"kernel/array.h\""] := by
  have hsymbols : tracedContext.symbols.Reachable := .declare .empty _
  obtain ⟨verdicts, t, lines, hmap, -, hcompiled, hheaders, -, -, hcode, -, -, -, hlines⟩ :=
    compileStatements_headers repeatingConfig hsymbols mixedStatements [] ()
  have hfinal : (CompileM.contextAfter (compileStatements mixedStatements)
      ⟨.ofSymbols repeatingConfig tracedContext.symbols, [], ()⟩).headers =
        [.kernel "main", { path := "kernel/array.h", quoted := false }, .kernel "object",
          .kernel "array"] := by
    decide +kernel
  simp only [CompileM.contextAfter, hcompiled] at hfinal
  have hpaths : ∀ header ∈ repeatingConfig.codegen.extraHeaders, Unbroken header.path := by
    decide
  have hcontainers : ∀ statement ∈ mixedStatements, ∀ assignment ∈ statement.assignments,
      Unbroken assignment.target.container.name := by
    decide
  refine ⟨verdicts, t, lines, hmap, hheaders, hfinal, hcode, ?_⟩
  rw [(hlines hpaths unbroken_of_tracedContext hcontainers).2, hfinal]
  decide

end AppendLowering
