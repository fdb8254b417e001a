import AppendLowering.Proofs.Append.Attempts
import AppendLowering.Proofs.Compile.Headers

/-!
# Compilations under different configurations

What a configuration says about logging has no influence on the compilation,
and what it says about threads shows in the runtime calls only. Two
compilations of the same statements, which differ in these respects, go through
the same attempts. Each of these emits the same lines and makes the same call,
in the mode of its run. So the two codes are compared line by line, although
they have different lengths and are cut back at different places.
-/

namespace AppendLowering

open CompileM
open Text (Unbroken)

variable {ρ ρ' : Type}

/-! ### Attempts of two runs -/

/-- Two runs agree in symbols and headers. -/
structure Alongside (s : CompileState ρ) (t : CompileState ρ') : Prop where
  left : s.context.Reachable
  right : t.context.Reachable
  symbols : s.context.symbols = t.context.symbols
  headers : s.context.headers = t.context.headers

theorem Alongside.respected :
    Respected (Alongside : CompileState ρ → CompileState ρ' → Prop) where
  left h := h.left
  right h := h.right
  symbols h := h.symbols
  relog _ _ h := ⟨h.left, h.right, h.symbols, h.headers⟩
  write {_ _ line} _ h :=
    ⟨(Context.Grows.write _ line).reachable h.left, (Context.Grows.write _ line).reachable h.right,
      h.symbols, h.headers⟩
  temporary {_ _} span h :=
    ⟨(Context.Grows.initTemporary _ span).reachable h.left,
      (Context.Grows.initTemporary _ span).reachable h.right,
      by simp only [Context.initTemporary, Context.write, h.symbols], h.headers⟩
  call {_ _} call h :=
    ⟨(Context.Grows.writeCall _ _).reachable h.left,
      (Context.Grows.writeCall _ _).reachable h.right, h.symbols,
      congrArg (Headers.add · call.container.header) h.headers⟩
  restore h _ := ⟨h.left, h.right, h.symbols, h.headers⟩

/-- Attempts at the same assignment. -/
def Attempt.Alongside (attempt : Attempt ρ) (attempt' : Attempt ρ') : Prop :=
  attempt.assignment = attempt'.assignment ∧ AppendLowering.Alongside attempt.start attempt'.start

section Attempts

variable {s : CompileState ρ} {s' : CompileState ρ'}

theorem compileAssignment_alongside (assignment : Assignment) :
    Agree (Alongside : CompileState ρ → CompileState ρ' → Prop)
      (fun call call' => call.inMode false = call'.inMode false)
      (compileAssignment Expr.compile assignment) (compileAssignment Expr.compile assignment) :=
  compileAppend_agree Alongside.respected (Expr.compile_agree Alongside.respected.toMirrored)
    Expr.compile_faultless Expr.compile_faultless _ _ _

theorem compileEach_alongside (statements : List Statement) :
    Agree (Alongside : CompileState ρ → CompileState ρ' → Prop) Eq
      (compileEach Expr.compile statements) (compileEach Expr.compile statements) :=
  compileEach_agree Alongside.respected (Expr.compile_agree Alongside.respected.toMirrored)
    Expr.compile_faultless Expr.compile_faultless statements

theorem assignmentAttempts_alongside (assignments : List Assignment) (h : Alongside s s') :
    List.Forall₂ Attempt.Alongside (assignmentAttempts Expr.compile assignments s)
      (assignmentAttempts Expr.compile assignments s') := by
  induction assignments generalizing s s' with
  | nil => exact .nil
  | cons assignment rest ih =>
      refine .cons ⟨rfl, h⟩ ?_
      have hmatch := compileAssignment_alongside assignment s s' h
      generalize compileAssignment Expr.compile assignment s = result at hmatch ⊢
      generalize compileAssignment Expr.compile assignment s' = result' at hmatch ⊢
      cases hmatch with
      | ok _ hstate => exact ih hstate
      | error _ => exact .nil

/-- The attempts of the accepted statements go side by side. -/
theorem keptAttempts_alongside (statements : List Statement) (h : Alongside s s') :
    List.Forall₂ Attempt.Alongside (keptAttempts Expr.compile statements s)
      (keptAttempts Expr.compile statements s') := by
  induction statements generalizing s s' with
  | nil => exact .nil
  | cons statement rest ih =>
      have hattempts := assignmentAttempts_alongside statement.assignments h
      have hmatch := compileEach_alongside [statement] s s' h
      unfold keptAttempts
      generalize compileEach Expr.compile [statement] s = result at hmatch ⊢
      generalize compileEach Expr.compile [statement] s' = result' at hmatch ⊢
      cases hmatch with
      | ok hdiagnostics hstate =>
          subst hdiagnostics
          refine List.rel_append ?_ (ih hstate)
          split
          · exact hattempts
          · exact .nil
      | error _ => exact .nil

theorem sameCalls_of_alongside {attempts : List (Attempt ρ)} {attempts' : List (Attempt ρ')}
    (h : List.Forall₂ Attempt.Alongside attempts attempts') :
    SameCalls (attempts.filterMap (Attempt.call? Expr.compile))
      (attempts'.filterMap (Attempt.call? Expr.compile)) := by
  induction h with
  | nil => rfl
  | @cons attempt attempt' _ _ hattempt _ ih =>
      obtain ⟨hassignment, hstart⟩ := hattempt
      have hmatch := compileAssignment_alongside attempt.assignment _ _ hstart
      simp only [List.filterMap_cons, Attempt.call?, value?, ← hassignment]
      generalize compileAssignment Expr.compile attempt.assignment attempt.start = result
        at hmatch ⊢
      generalize compileAssignment Expr.compile attempt.assignment attempt'.start = result'
        at hmatch ⊢
      cases hmatch with
      | ok hcall _ => exact congrArg₂ List.cons hcall ih
      | error _ => exact ih

theorem assignments_of_alongside {attempts : List (Attempt ρ)} {attempts' : List (Attempt ρ')}
    (h : List.Forall₂ Attempt.Alongside attempts attempts') :
    attempts.map Attempt.assignment = attempts'.map Attempt.assignment := by
  induction h with
  | nil => rfl
  | cons hattempt _ ih => exact congrArg₂ List.cons hattempt.1 ih

end Attempts

/-! ### The lines of one run -/

section Kept

variable {s t : CompileState ρ}

theorem assignmentAttempts_of_ok {assignments : List Assignment} {calls : List RuntimeCall}
    (h : compileAssignments Expr.compile assignments s = .ok calls t) :
    (assignmentAttempts Expr.compile assignments s).map Attempt.assignment = assignments ∧
      (assignmentAttempts Expr.compile assignments s).filterMap (Attempt.call? Expr.compile) =
        calls := by
  induction assignments generalizing s calls with
  | nil =>
      cases h
      exact ⟨rfl, rfl⟩
  | cons assignment rest ih =>
      obtain ⟨call, u, hfirst, h⟩ := bind_ok h
      obtain ⟨others, v, hrest, hend⟩ := bind_ok h
      cases hend
      obtain ⟨hassignments, hcalls⟩ := ih hrest
      simp only [assignmentAttempts, hfirst, List.map_cons, hassignments, List.filterMap_cons,
        Attempt.call?, value?, true_and]
      exact congrArg (List.cons call) hcalls

/-- The attempts of accepted statements emit lines together, among which are their calls. -/
theorem compileEach_assigns {statements : List Statement} {diagnostics : List Diagnostic}
    (hs : s.context.Reachable)
    (h : compileEach Expr.compile statements s = .ok diagnostics t) :
    ∃ lines,
      Assigns ((keptAttempts Expr.compile statements s).map Attempt.assignment) s.context lines
        t.context ∧
      lines.filterMap Line.call? =
        (keptAttempts Expr.compile statements s).filterMap (Attempt.call? Expr.compile) := by
  induction statements generalizing s diagnostics with
  | nil =>
      cases h
      exact ⟨[], .nil _, rfl⟩
  | cons statement rest ih =>
      rw [compileEach_cons] at h
      obtain ⟨first, u, hfirst, h⟩ := bind_ok h
      obtain ⟨others, v, hrest, hend⟩ := bind_ok h
      cases hend
      rcases compileEach_singleton_cases Expr.compile statement s with
        ⟨calls, v, message, hrun, heach⟩ | ⟨d, v, hrun, heach⟩ | ⟨f, v, hrun, heach⟩
      · cases hfirst.symm.trans heach
        obtain ⟨lines, hlines, hcalls⟩ := assigns_of_ok hs (transaction_ok hrun)
        obtain ⟨hassignments, hreturned⟩ := assignmentAttempts_of_ok (transaction_ok hrun)
        obtain ⟨more, hmore, hlater⟩ :=
          ih (s := v.logged _) (hlines.emits.grows.reachable hs) hrest
        refine ⟨lines ++ more, ?_, ?_⟩
        · simpa only [keptAttempts, hfirst, List.isEmpty_nil, if_true, List.map_append,
            hassignments] using hlines.append hmore
        · simp only [keptAttempts, hfirst, List.isEmpty_nil, if_true, List.filterMap_append,
            hreturned, hcalls, hlater]
      · cases hfirst.symm.trans heach
        have hcontext :=
          (compileStatement_undoes Expr.compile_additive hs statement).restored d _ hrun
        obtain ⟨lines, hlines, hcalls⟩ := ih (hcontext ▸ hs) hrest
        refine ⟨lines, ?_, ?_⟩
        · simpa [keptAttempts, hfirst, ← hcontext] using hlines
        · simpa [keptAttempts, hfirst] using hcalls
      · cases hfirst.symm.trans heach

/-- The calls that are made for the accepted ones among the statements, as they are returned. -/
def callsMade (statements : List Statement) (s : CompileState ρ) : List RuntimeCall :=
  (keptAttempts Expr.compile statements (s.announced statements)).filterMap
    (Attempt.call? Expr.compile)

theorem compileStatements_assigns {statements : List Statement} {diagnostics : List Diagnostic}
    (hs : s.context.Reachable) (h : compileStatements statements s = .ok diagnostics t) :
    ∃ lines,
      Assigns ((keptAttempts Expr.compile statements (s.announced statements)).map
        Attempt.assignment) s.context lines t.context ∧
      lines.filterMap Line.call? = callsMade statements s := by
  obtain ⟨reported, u, heach, hcontext⟩ := compileEach_of_compileStatementsWith h
  rw [hcontext]
  exact compileEach_assigns (s := s.announced statements) hs heach

theorem mem_of_assignmentAttempts {assignments : List Assignment} {attempt : Attempt ρ}
    (h : attempt ∈ assignmentAttempts Expr.compile assignments s) :
    attempt.assignment ∈ assignments := by
  induction assignments generalizing s with
  | nil => cases h
  | cons assignment rest ih =>
      unfold assignmentAttempts at h
      rcases List.mem_cons.mp h with rfl | hrest
      · exact List.mem_cons_self
      · split at hrest
        · exact List.mem_cons_of_mem _ (ih hrest)
        · cases hrest

/-- Only assignments of the statements are attempted. -/
theorem mem_of_keptAttempts {statements : List Statement} {attempt : Attempt ρ}
    (h : attempt ∈ keptAttempts Expr.compile statements s) :
    ∃ statement ∈ statements, attempt.assignment ∈ statement.assignments := by
  induction statements generalizing s with
  | nil => cases h
  | cons statement rest ih =>
      unfold keptAttempts at h
      split at h
      · rcases List.mem_append.mp h with hhere | hlater
        · split at hhere
          · exact ⟨statement, List.mem_cons_self, mem_of_assignmentAttempts hhere⟩
          · cases hhere
        · obtain ⟨other, hother, hassignment⟩ := ih hlater
          exact ⟨other, List.mem_cons_of_mem _ hother, hassignment⟩
      · cases h

end Kept

/-! ### The same symbols, the same lines -/

theorem Context.initTemporary_unique {c c' start start' : Context} {span : Span}
    {holder holder' : String} (hsymbols : c.symbols = c'.symbols)
    (h : c.initTemporary span = (holder, start)) (h' : c'.initTemporary span = (holder', start')) :
    holder = holder' ∧ start.symbols = start'.symbols := by
  cases h
  cases h'
  simp only [Context.write, hsymbols, and_self]

mutual

theorem Expr.Compiles.unique (expr : Expr) {c c' d d' : Context} {value value' : Resolved}
    {lines lines' : List Line} (h : expr.Compiles c value lines d)
    (h' : expr.Compiles c' value' lines' d') (hsymbols : c.symbols = c'.symbols) :
    value = value' ∧ lines = lines' ∧ d.symbols = d'.symbols := by
  cases expr with
  | literal literal span =>
      cases h
      cases h'
      exact ⟨rfl, rfl, hsymbols⟩
  | var name span =>
      cases h with
      | var hread =>
          cases h' with
          | var hread' =>
              rw [Context.readVariable_congr hsymbols, hread'] at hread
              cases hread
              exact ⟨rfl, rfl, hsymbols⟩
  | array items span =>
      cases h with
      | array hstart hitems =>
          cases h' with
          | array hstart' hitems' =>
              obtain ⟨rfl, hstarted⟩ := Context.initTemporary_unique hsymbols hstart hstart'
              obtain ⟨rfl, hend⟩ := hitems.unique items hitems' hstarted
              exact ⟨rfl, rfl, hend⟩

theorem Expr.CompilesAll.unique (items : List Expr) {holder : String} {c c' d d' : Context}
    {lines lines' : List Line} (h : Expr.CompilesAll items holder c lines d)
    (h' : Expr.CompilesAll items holder c' lines' d') (hsymbols : c.symbols = c'.symbols) :
    lines = lines' ∧ d.symbols = d'.symbols := by
  cases items with
  | nil =>
      cases h
      cases h'
      exact ⟨rfl, hsymbols⟩
  | cons item rest =>
      cases h with
      | cons hitem hoperand hrest =>
          cases h' with
          | cons hitem' hoperand' hrest' =>
              obtain ⟨rfl, rfl, hmiddle⟩ := hitem.unique item hitem' hsymbols
              rw [Resolved.operand_congr hmiddle, hoperand'] at hoperand
              cases hoperand
              obtain ⟨rfl, hend⟩ := hrest.unique rest hrest' hmiddle
              exact ⟨rfl, hend⟩

end

theorem Expr.Holds.unique {value : Expr} {c c' d d' : Context} {holder holder' : String}
    {lines lines' : List Line} (h : value.Holds c holder lines d)
    (h' : value.Holds c' holder' lines' d') (hsymbols : c.symbols = c'.symbols) :
    lines = lines' ∧ d.symbols = d'.symbols := by
  cases h with
  | held hvalue hoperand =>
      cases h' with
      | held hvalue' hoperand' => exact (hvalue.unique value hvalue' hsymbols).2
      | boxed hvalue' hoperand' hstart' =>
          obtain ⟨rfl, rfl, hend⟩ := hvalue.unique value hvalue' hsymbols
          rw [Resolved.operand_congr hend, hoperand'] at hoperand
          cases hoperand
  | boxed hvalue hoperand hstart =>
      cases h' with
      | held hvalue' hoperand' =>
          obtain ⟨rfl, rfl, hend⟩ := hvalue.unique value hvalue' hsymbols
          rw [Resolved.operand_congr hend, hoperand'] at hoperand
          cases hoperand
      | boxed hvalue' hoperand' hstart' =>
          obtain ⟨rfl, rfl, hend⟩ := hvalue.unique value hvalue' hsymbols
          rw [Resolved.operand_congr hend, hoperand'] at hoperand
          cases hoperand
          obtain ⟨rfl, hstarted⟩ := Context.initTemporary_unique hend hstart hstart'
          exact ⟨rfl, hstarted⟩

/-- The line as it is emitted with threads or without. -/
def Line.inMode (zts : Bool) : Line → Line
  | .call made => .call (made.inMode zts)
  | line => line

theorem Line.inMode_inMode (zts zts' : Bool) (line : Line) :
    (line.inMode zts').inMode zts = line.inMode zts := by
  cases line with
  | fresh | initArray | store | push | call => rfl

theorem Line.inMode_of_call?_eq_none {line : Line} (h : line.call? = none) (zts : Bool) :
    line.inMode zts = line := by
  cases line with
  | call made => cases h
  | fresh | initArray | store | push => rfl

theorem Line.filterMap_call?_inMode (zts : Bool) (lines : List Line) :
    (lines.map (Line.inMode zts)).filterMap Line.call? =
      (lines.filterMap Line.call?).map (RuntimeCall.inMode zts) := by
  induction lines with
  | nil => rfl
  | cons line rest ih =>
      cases line with
      | call made => exact congrArg (List.cons _) ih
      | fresh | initArray | store | push => exact ih

/-- The same assignments emit the same lines, as soon as their calls are the same. -/
theorem Assigns.unique {assignments : List Assignment} {c c' d d' : Context}
    {lines lines' : List Line} (h : Assigns assignments c lines d)
    (h' : Assigns assignments c' lines' d') (hsymbols : c.symbols = c'.symbols)
    (hcalls : SameCalls (lines.filterMap Line.call?) (lines'.filterMap Line.call?)) :
    lines.map (Line.inMode false) = lines'.map (Line.inMode false) := by
  induction h generalizing c' lines' with
  | nil c =>
      cases h'
      rfl
  | cons haccepted _ _ ih =>
      cases h' with
      | cons haccepted' _ hrest' =>
          obtain ⟨rfl, hmiddle⟩ := haccepted.value.unique haccepted'.value hsymbols
          simp only [List.filterMap_append, haccepted.value.callless.2, List.nil_append,
            List.filterMap_cons, Line.call?, SameCalls, List.map_cons, List.cons.injEq] at hcalls
          have hrest := ih hrest' hmiddle hcalls.2
          simp only [List.map_append, List.map_cons, Line.inMode, hcalls.1, hrest]

/-- The calls are made in the mode of the configuration. -/
theorem Assigns.inMode {assignments : List Assignment} {c d : Context} {lines : List Line}
    (h : Assigns assignments c lines d) : lines.map (Line.inMode c.config.codegen.zts) = lines := by
  induction h with
  | nil c => rfl
  | @cons assignment rest c d e call lines lines' haccepted hcall _ ih =>
      have hconfig := (haccepted.value.emits.grows.trans (.writeCall d call)).config_eq
      have hvalue : lines.map (Line.inMode c.config.codegen.zts) = lines := by
        have hother := List.filterMap_eq_nil_iff.mp haccepted.value.callless.2
        refine (List.map_congr_left fun line hline => ?_).trans (List.map_id _)
        exact Line.inMode_of_call?_eq_none (hother line hline) _
      have hmade : call.inMode c.config.codegen.zts = call := by
        rw [← hcall.zts]
        rfl
      rw [hconfig] at ih
      simp only [List.map_append, List.map_cons, Line.inMode, hvalue, hmade, ih]

/-- Both runs emit the same lines, each of them in its own mode. -/
theorem Alongside.assigns {s t : CompileState ρ} {s' t' : CompileState ρ'} (h : Alongside s s')
    {statements : List Statement} {diagnostics diagnostics' : List Diagnostic}
    (ht : compileStatements statements s = .ok diagnostics t)
    (ht' : compileStatements statements s' = .ok diagnostics' t') :
    ∃ lines : List Line,
      Assigns ((keptAttempts Expr.compile statements (s.announced statements)).map
        Attempt.assignment) s.context (lines.map (Line.inMode s.context.config.codegen.zts))
        t.context ∧
      Assigns ((keptAttempts Expr.compile statements (s'.announced statements)).map
        Attempt.assignment) s'.context (lines.map (Line.inMode s'.context.config.codegen.zts))
        t'.context ∧
      callsMade statements s = (lines.filterMap Line.call?).map
        (RuntimeCall.inMode s.context.config.codegen.zts) ∧
      callsMade statements s' = (lines.filterMap Line.call?).map
        (RuntimeCall.inMode s'.context.config.codegen.zts) := by
  obtain ⟨lines, hlines, hcalls⟩ := compileStatements_assigns h.left ht
  obtain ⟨lines', hlines', hcalls'⟩ := compileStatements_assigns h.right ht'
  have hannounced : Alongside (s.announced statements) (s'.announced statements) :=
    Alongside.respected.relog _ _ h
  have hattempts := keptAttempts_alongside statements hannounced
  have hsame : lines.map (Line.inMode false) = lines'.map (Line.inMode false) := by
    refine Assigns.unique (assignments_of_alongside hattempts ▸ hlines) hlines' h.symbols ?_
    rw [hcalls, hcalls']
    exact sameCalls_of_alongside hattempts
  have hmode' : lines.map (Line.inMode s'.context.config.codegen.zts) = lines' := by
    have hagain := congrArg (List.map (Line.inMode s'.context.config.codegen.zts)) hsame
    simp only [List.map_map, Function.comp_def, Line.inMode_inMode] at hagain
    exact hagain.trans hlines'.inMode
  refine ⟨lines, hlines.inMode.symm ▸ hlines, hmode'.symm ▸ hlines', ?_, ?_⟩
  · rw [← Line.filterMap_call?_inMode, hlines.inMode, hcalls]
  · rw [← Line.filterMap_call?_inMode, hmode', hcalls']

/-! ### Calls with threads and without -/

/-- The text of the line that makes a call; `ending` follows the name of the holder. -/
def RuntimeCall.lineWith (call : RuntimeCall) (ending : String) : String :=
  Line.statement call.container.function
    (call.container.leading ++ ("&" ++ call.holder ++ ending) ::
      CString.sized call.chain.keys :: Nat.repr call.chain.slots :: call.chain.arguments)

/-- The texts of lines without threads and with them, when these are the calls that the lines make.
Only the line of a call begins like one. It passes the thread context on right after the address of
the holder. -/
inductive Threading : List RuntimeCall → List String → List String → Prop
  | nil : Threading [] [] []
  | other {text : String} {calls : List RuntimeCall} {plain threaded : List String}
      (hother : ∀ container : Container,
        (container.function ++ "(").toList.isPrefixOf text.toList = false)
      (rest : Threading calls plain threaded) :
      Threading calls (text :: plain) (text :: threaded)
  | call (made : RuntimeCall) {calls : List RuntimeCall} {plain threaded : List String}
      (rest : Threading calls plain threaded) :
      Threading (made :: calls) (made.lineWith "" :: plain)
        (made.lineWith " TSRMLS_CC" :: threaded)

namespace Line

/-- Texts that begin alike up to their first brackets are the same up to there. -/
theorem eq_of_isPrefixOf {first second rest : List Char} (hfirst : '(' ∉ first)
    (hsecond : '(' ∉ second)
    (h : (first ++ ['(']).isPrefixOf (second ++ '(' :: rest) = true) : first = second := by
  have htake (text more : List Char) (htext : '(' ∉ text) :
      (text ++ '(' :: more).takeWhile (· != '(') = text := by
    rw [List.takeWhile_append_of_pos]
    · simp
    · intro c hc
      rw [bne_iff_ne]
      rintro rfl
      exact htext hc
  obtain ⟨more, hmore⟩ := List.isPrefixOf_iff_prefix.mp h
  rw [List.append_assoc] at hmore
  calc first = (first ++ '(' :: more).takeWhile (· != '(') := (htake first more hfirst).symm
    _ = (second ++ '(' :: rest).takeWhile (· != '(') := congrArg _ hmore
    _ = second := htake second rest hsecond

theorem bracket_notMem_function (line : Line) : '(' ∉ line.function.toList := by
  unfold function
  split
  case h_14 c => cases c.container <;> simp only [Container.function] <;> decide
  all_goals decide

/-- A line that makes no runtime call does not begin like one. -/
theorem not_isPrefixOf_of_call?_eq_none {line : Line} (h : line.call? = none)
    (container : Container) :
    (container.function ++ "(").toList.isPrefixOf line.render.toList = false := by
  have hother : container.function ≠ line.function := by
    unfold function
    split
    case h_14 c => cases h
    all_goals cases container <;> simp only [Container.function] <;> decide
  rw [Bool.eq_false_iff]
  intro hbegins
  rw [render_eq, statement, String.append_assoc, String.append_assoc, String.toList_append,
    String.toList_append, String.toList_append] at hbegins
  apply hother
  apply String.toList_injective
  refine eq_of_isPrefixOf ?_ line.bracket_notMem_function hbegins
  cases container <;> simp only [Container.function] <;> decide

theorem render_call (call : RuntimeCall) :
    (Line.call call).render = call.lineWith (if call.zts then " TSRMLS_CC" else "") := by
  simp [render_eq, function, arguments, RuntimeCall.lineWith, RuntimeCall.arguments,
    RuntimeCall.valueArgument]

/-- The texts of lines in a mode. -/
def textsIn (zts : Bool) (lines : List Line) : List String :=
  lines.map fun line => (line.inMode zts).render

theorem threading (lines : List Line) :
    Threading (lines.filterMap call?) (textsIn false lines) (textsIn true lines) := by
  induction lines with
  | nil => exact .nil
  | cons line rest ih =>
      cases hline : line.call? with
      | some made =>
          obtain rfl : line = .call made := by
            cases line <;> cases hline
            rfl
          have hrest := Threading.call made ih
          simpa [textsIn, inMode, render_call, RuntimeCall.inMode, RuntimeCall.lineWith, call?]
            using hrest
      | none =>
          have hmode := inMode_of_call?_eq_none hline
          have hrest := Threading.other (not_isPrefixOf_of_call?_eq_none hline) ih
          simpa [textsIn, hmode, hline] using hrest

theorem textsIn_eq (zts : Bool) (lines : List Line) :
    textsIn zts lines = if zts then textsIn true lines else textsIn false lines := by
  cases zts <;> rfl

theorem code_inMode (zts : Bool) (lines : List Line) :
    code (lines.map (inMode zts)) = String.join ((textsIn zts lines).map (· ++ "\n")) := by
  rw [code, textsIn, List.map_map, List.map_map]
  rfl

end Line

/-- The lines of the code of a run, where no name breaks a line. -/
theorem Assigns.linesOf_code {statements : List Statement} {s t : CompileState ρ} {zts : Bool}
    {lines : List Line}
    (h : Assigns ((keptAttempts Expr.compile statements (s.announced statements)).map
      Attempt.assignment) s.context (lines.map (Line.inMode zts)) t.context)
    (hs : s.context.Reachable)
    (hnames : ∀ name, s.context.symbols.contains name = true → Unbroken name)
    (hcontainers : ∀ statement ∈ statements, ∀ assignment ∈ statement.assignments,
      Unbroken assignment.target.container.name) :
    Text.linesOf (Line.code (lines.map (Line.inMode zts))) = Line.textsIn zts lines := by
  have hassigned : ∀ assignment ∈ (keptAttempts Expr.compile statements
      (s.announced statements)).map Attempt.assignment,
      Unbroken assignment.target.container.name := by
    intro assignment hmem
    obtain ⟨attempt, hattempt, rfl⟩ := List.mem_map.mp hmem
    obtain ⟨statement, hstatement, hassignment⟩ := mem_of_keptAttempts hattempt
    exact hcontainers statement hstatement _ hassignment
  rw [Line.linesOf_code (h.unbroken hs (h.emits.grows.unbroken_names hnames) hassigned),
    List.map_map]
  rfl

/-- Under two configurations with the same extra headers, statements get the same diagnostics and
leave the same symbols and headers, however much is logged. The same calls are made, each in the
mode of its run, and the codes consist of the same lines: a line that begins like a runtime call is
the line of one of these calls, in order, and with threads it passes the thread context on right
after the address of its holder. Where no name breaks a line, these are the lines of the text. -/
theorem compileStatements_under_configurations (config config' : Config)
    (hheaders : config.codegen.extraHeaders = config'.codegen.extraHeaders) {symbols : SymbolTable}
    (hsymbols : symbols.Reachable) (statements : List Statement) (log log' : Log) (own : ρ)
    (own' : ρ') :
    let s : CompileState ρ := ⟨.ofSymbols config symbols, log, own⟩
    let s' : CompileState ρ' := ⟨.ofSymbols config' symbols, log', own'⟩
    ∃ diagnostics t t', ∃ (calls : List RuntimeCall) (plain threaded : List String),
      compileStatements statements s = .ok diagnostics t ∧
      compileStatements statements s' = .ok diagnostics t' ∧
      t.context.symbols = t'.context.symbols ∧
      t.context.headers = t'.context.headers ∧
      callsMade statements s = calls.map (RuntimeCall.inMode config.codegen.zts) ∧
      callsMade statements s' = calls.map (RuntimeCall.inMode config'.codegen.zts) ∧
      Threading calls plain threaded ∧
      t.context.code.text = String.join
        ((if config.codegen.zts then threaded else plain).map (· ++ "\n")) ∧
      t'.context.code.text = String.join
        ((if config'.codegen.zts then threaded else plain).map (· ++ "\n")) ∧
      ((∀ name, symbols.contains name = true → Unbroken name) →
        (∀ statement ∈ statements, ∀ assignment ∈ statement.assignments,
          Unbroken assignment.target.container.name) →
        Text.linesOf t.context.code.text = (if config.codegen.zts then threaded else plain) ∧
        Text.linesOf t'.context.code.text = (if config'.codegen.zts then threaded else plain)) ∧
      (config.codegen.zts = config'.codegen.zts → t.context.code = t'.context.code) := by
  intro s s'
  have hleft := Context.Reachable.ofSymbols hsymbols config
  have hright := Context.Reachable.ofSymbols hsymbols config'
  have hstart : Alongside s s' := ⟨hleft, hright, rfl, congrArg Headers.ofList hheaders⟩
  have hmatch : Matches Alongside Eq (compileStatements statements s)
      (compileStatements statements s') :=
    compileStatementsWith_agree Alongside.respected
      (Expr.compile_agree Alongside.respected.toMirrored) Expr.compile_faultless
      Expr.compile_faultless statements _ _ hstart
  obtain ⟨verdicts, t, -, -, ht⟩ := compileStatements_run statements s hleft
  rw [ht] at hmatch
  generalize ht' : compileStatements statements s' = result at hmatch
  cases hmatch with
  | @ok _ diagnostics _ t' hdiagnostics hstate =>
      subst hdiagnostics
      obtain ⟨lines, hlines, hlines', hcalls, hcalls'⟩ := hstart.assigns ht ht'
      have hcode : t.context.code.text =
          Line.code (lines.map (Line.inMode config.codegen.zts)) :=
        hlines.emits.code.trans String.empty_append
      have hcode' : t'.context.code.text =
          Line.code (lines.map (Line.inMode config'.codegen.zts)) :=
        hlines'.emits.code.trans String.empty_append
      refine ⟨_, t, t', lines.filterMap Line.call?, Line.textsIn false lines,
        Line.textsIn true lines, ht, rfl, hstate.symbols, hstate.headers, hcalls, hcalls',
        Line.threading lines, ?_, ?_, fun hnames hcontainers => ⟨?_, ?_⟩, fun hzts => ?_⟩
      · rw [hcode, Line.code_inMode, Line.textsIn_eq]
      · rw [hcode', Line.code_inMode, Line.textsIn_eq]
      · rw [hcode, ← Line.textsIn_eq]
        exact hlines.linesOf_code hleft hnames hcontainers
      · rw [hcode', ← Line.textsIn_eq]
        exact hlines'.linesOf_code hright hnames hcontainers
      · refine congrArg CodeBuffer.mk ?_
        rw [hcode, hcode', hzts]

/-- A configuration that logs nothing and has no threads. -/
def silentConfig : Config :=
  .make false [] true 0 { zts := false, extraHeaders := [.kernel "main"] }

/-- The code of the statements that are accepted; `ending` follows the values in the calls. -/
def codeBetween (ending : String) : String :=
  "zephir_array_update_multi(&obj, &obj" ++ ending ++ ", SL(\"a\"), 0);\n" ++
    "ZEPHIR_INIT_VAR(_0);\nZVAL_LONG(_0, 7);\n" ++
    "zephir_array_update_multi(&obj, &_0" ++ ending ++ ", SL(\"a\"), 0);\n"

/-- The state before one of the runs that are compared. -/
def underConfig (config : Config) : CompileState Unit :=
  ⟨.ofSymbols config tracedContext.symbols, [], ()⟩

/-- One run traces everything and passes the thread context on, the other does neither. -/
theorem compileStatements_under_configurations_traced :
    ∃ (diagnostics : List Diagnostic) (t t' : CompileState Unit) (calls : List RuntimeCall)
      (plain threaded : List String),
      compileStatements rejectedBetween (underConfig tracedContext.config) = .ok diagnostics t ∧
      compileStatements rejectedBetween (underConfig silentConfig) = .ok diagnostics t' ∧
      t.context.symbols = t'.context.symbols ∧
      t.context.headers = t'.context.headers ∧
      callsMade rejectedBetween (underConfig tracedContext.config) =
        calls.map (RuntimeCall.inMode true) ∧
      callsMade rejectedBetween (underConfig silentConfig) =
        calls.map (RuntimeCall.inMode false) ∧
      Threading calls plain threaded ∧
      Text.linesOf t.context.code.text = threaded ∧
      Text.linesOf t'.context.code.text = plain ∧
      t.context.code.text = codeBetween " TSRMLS_CC" ∧
      t'.context.code.text = codeBetween "" := by
  have hsymbols : tracedContext.symbols.Reachable := .declare .empty _
  obtain ⟨diagnostics, t, t', calls, plain, threaded, ht, ht', hsame, hheaders, hcalls, hcalls',
      hthreading, -, -, hlines, -⟩ :=
    compileStatements_under_configurations tracedContext.config silentConfig rfl hsymbols
      rejectedBetween [] [] () ()
  have hcontainers : ∀ statement ∈ rejectedBetween, ∀ assignment ∈ statement.assignments,
      Unbroken assignment.target.container.name := by
    decide
  obtain ⟨hlinesOf, hlinesOf'⟩ := hlines unbroken_of_tracedContext hcontainers
  have htext : (stateAfter (compileStatements rejectedBetween)
      (underConfig tracedContext.config)).context.code.text = codeBetween " TSRMLS_CC" := by
    decide +kernel
  have htext' : (stateAfter (compileStatements rejectedBetween)
      (underConfig silentConfig)).context.code.text = codeBetween "" := by
    decide +kernel
  rw [underConfig, stateAfter_ok ht] at htext
  rw [underConfig, stateAfter_ok ht'] at htext'
  exact ⟨diagnostics, t, t', calls, plain, threaded, ht, ht', hsame, hheaders, hcalls, hcalls',
    hthreading, hlinesOf, hlinesOf', htext, htext'⟩

end AppendLowering
