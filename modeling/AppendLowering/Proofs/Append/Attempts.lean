import AppendLowering.Proofs.Append.Stages

/-!
# The attempts of a compilation

A compilation attempts the assignments of each statement in order, up to the
first that fails. Its codegen trace is made of the traces of these attempts,
one after the other, and each of them tells how the attempt ended. The calls
that were emitted are those of the attempts whose trace reaches the last stage.
Of these, the calls of rejected statements are undone; the rest of the code
stays, attempt by attempt.
-/

namespace AppendLowering

open CompileM

variable {ρ α : Type} {resolver : Resolver ρ} {s t u : CompileState ρ}

/-- The assignments of a statement that are attempted: all up to the first that fails. -/
def assignmentAttempts (resolver : Resolver ρ) :
    List Assignment → CompileState ρ → List (Attempt ρ)
  | [], _ => []
  | assignment :: rest, s =>
      ⟨assignment, s⟩ ::
        match compileAssignment resolver assignment s with
        | .ok _ t => assignmentAttempts resolver rest t
        | .error _ _ => []

/-- The assignments of statements that are attempted. A rejection does not end the list, but a fault
of the compiler itself does. -/
def statementAttempts (resolver : Resolver ρ) : List Statement → CompileState ρ → List (Attempt ρ)
  | [], _ => []
  | statement :: rest, s =>
      assignmentAttempts resolver statement.assignments s ++
        match compileEach resolver [statement] s with
        | .ok _ t => statementAttempts resolver rest t
        | .error _ _ => []

/-- The assignments of the statements that are accepted. -/
def keptAttempts (resolver : Resolver ρ) : List Statement → CompileState ρ → List (Attempt ρ)
  | [], _ => []
  | statement :: rest, s =>
      match compileEach resolver [statement] s with
      | .ok diagnostics t =>
          (if diagnostics.isEmpty then assignmentAttempts resolver statement.assignments s
            else []) ++ keptAttempts resolver rest t
      | .error _ _ => []

theorem keptAttempts_sublist (resolver : Resolver ρ) (statements : List Statement)
    (s : CompileState ρ) :
    (keptAttempts resolver statements s).Sublist (statementAttempts resolver statements s) := by
  induction statements generalizing s with
  | nil => exact .refl _
  | cons statement rest ih =>
      unfold keptAttempts statementAttempts
      cases compileEach resolver [statement] s with
      | error failure t => exact List.nil_sublist _
      | ok diagnostics t =>
          refine .append ?_ (ih t)
          split
          · exact .refl _
          · exact List.nil_sublist _

/-- From the first state to the second, these were the attempts: their traces make up the codegen
trace, and their calls were emitted. -/
structure Resolver.Tries (resolver : Resolver ρ) (s : CompileState ρ) (attempts : List (Attempt ρ))
    (t : CompileState ρ) : Prop where
  reaches : resolver.Reaches s (attempts.flatMap (Attempt.trace resolver))
    (attempts.filterMap (Attempt.call? resolver)) t
  traced : ∀ attempt ∈ attempts, attempt.start.Traced

namespace Resolver.Tries

variable {attempts more : List (Attempt ρ)}

theorem refl (hs : s.Traced) : resolver.Tries s [] s := ⟨.refl hs, by simp⟩

theorem trans (first : resolver.Tries s attempts t) (second : resolver.Tries t more u) :
    resolver.Tries s (attempts ++ more) u where
  reaches := by
    rw [List.flatMap_append, List.filterMap_append]
    exact first.reaches.trans second.reaches
  traced := List.forall_mem_append.mpr ⟨first.traced, second.traced⟩

theorem logged (h : resolver.Tries s attempts t) {entry : LogEntry}
    (hentry : entry.codegen? = none) : resolver.Tries s attempts (t.logged entry) :=
  ⟨h.reaches.logged hentry, h.traced⟩

theorem transaction {action : CompileM ρ α}
    (h : resolver.Tries s attempts (stateAfter action s)) :
    resolver.Tries s attempts (stateAfter (transaction action) s) :=
  ⟨h.reaches.transaction, h.traced⟩

theorem single (hresolver : ∀ expr, Quiet resolver (resolver expr)) (assignment : Assignment)
    (hs : s.Traced) :
    resolver.Tries s [⟨assignment, s⟩] (stateAfter (compileAssignment resolver assignment) s) := by
  have hattempt : (Attempt.mk assignment s).start.Traced := hs
  refine ⟨?_, List.forall_mem_singleton.mpr hs⟩
  rw [List.filterMap_eq_flatMap_toList, List.flatMap_singleton, List.flatMap_singleton]
  exact (Attempt.ends_and_reaches hresolver hattempt).2

end Resolver.Tries

theorem compileAssignments_tries (hresolver : ∀ expr, Quiet resolver (resolver expr))
    (assignments : List Assignment) (hs : s.Traced) :
    resolver.Tries s (assignmentAttempts resolver assignments s)
      (stateAfter (compileAssignments resolver assignments) s) := by
  induction assignments generalizing s with
  | nil => exact .refl hs
  | cons assignment rest ih =>
      have hfirst := Resolver.Tries.single hresolver assignment hs
      unfold assignmentAttempts compileAssignments
      cases hrun : compileAssignment resolver assignment s with
      | error failure t =>
          rw [stateAfter_error hrun] at hfirst
          rw [stateAfter_bind_error hrun]
          exact hfirst
      | ok call t =>
          rw [stateAfter_ok hrun] at hfirst
          rw [stateAfter_bind_ok hrun, stateAfter_bind_pure]
          exact hfirst.trans (ih hfirst.reaches.traced)

theorem compileStatement_tries (hresolver : ∀ expr, Quiet resolver (resolver expr))
    (statement : Statement) (hs : s.Traced) :
    resolver.Tries s (assignmentAttempts resolver statement.assignments s)
      (stateAfter (compileStatement resolver statement) s) :=
  (compileAssignments_tries hresolver statement.assignments hs).transaction

theorem compileEach_singleton_tries (hresolver : ∀ expr, Quiet resolver (resolver expr))
    (statement : Statement) (hs : s.Traced) :
    resolver.Tries s (assignmentAttempts resolver statement.assignments s)
      (stateAfter (compileEach resolver [statement]) s) := by
  have htries := compileStatement_tries hresolver statement hs
  rcases compileEach_singleton_cases resolver statement s with
    ⟨calls, t, message, hrun, heach⟩ | ⟨d, t, hrun, heach⟩ | ⟨f, t, hrun, heach⟩
  · rw [stateAfter_ok hrun] at htries
    rw [stateAfter_ok heach]
    exact htries.logged rfl
  · rw [stateAfter_error hrun] at htries
    rwa [stateAfter_ok heach]
  · rw [stateAfter_error hrun] at htries
    rwa [stateAfter_error heach]

theorem compileEach_tries (hresolver : ∀ expr, Quiet resolver (resolver expr))
    (statements : List Statement) (hs : s.Traced) :
    resolver.Tries s (statementAttempts resolver statements s)
      (stateAfter (compileEach resolver statements) s) := by
  induction statements generalizing s with
  | nil => exact .refl hs
  | cons statement rest ih =>
      have hfirst := compileEach_singleton_tries hresolver statement hs
      rw [compileEach_cons]
      unfold statementAttempts
      cases hrun : compileEach resolver [statement] s with
      | error failure t =>
          rw [stateAfter_error hrun] at hfirst
          rw [stateAfter_bind_error hrun, List.append_nil]
          exact hfirst
      | ok diagnostics t =>
          rw [stateAfter_ok hrun] at hfirst
          rw [stateAfter_bind_ok hrun, stateAfter_bind_pure]
          exact hfirst.trans (ih hfirst.reaches.traced)

theorem compileStatementsWith_tries (hresolver : ∀ expr, Quiet resolver (resolver expr))
    (statements : List Statement) (hs : s.Traced) :
    resolver.Tries s (statementAttempts resolver statements (s.announced statements))
      (stateAfter (compileStatementsWith resolver statements) s) := by
  have hannounced : resolver.Tries s [] (s.announced statements) :=
    (Resolver.Tries.refl hs).logged rfl
  have htries := hannounced.trans (compileEach_tries hresolver statements hannounced.reaches.traced)
  rw [List.nil_append] at htries
  have hstart : (CompileM.record (.phase LogEntry.phaseIndent
      ("Lowering " ++ Nat.repr statements.length ++ " statements")) : CompileM ρ Unit) s =
        .ok () (s.announced statements) := rfl
  unfold compileStatementsWith
  rw [stateAfter_bind_ok hstart]
  cases hrun : compileEach resolver statements (s.announced statements) with
  | error failure t =>
      rw [stateAfter_error hrun] at htries
      rwa [stateAfter_bind_error hrun]
  | ok diagnostics t =>
      rw [stateAfter_ok hrun] at htries
      rw [stateAfter_bind_ok hrun]
      split
      · exact htries
      · exact htries.logged rfl

section Kept

/-- A resolver that only adds to the context lets it grow while it answers. -/
theorem Resolver.Answers.grows {indexes : List Expr} {values : List Resolved}
    (h : resolver.Answers s indexes values t) (hadditive : resolver.Additive)
    (hs : s.context.Reachable) : s.context.Grows t.context := by
  induction h with
  | nil s => exact .refl
  | @cons s t u index value rest values hanswer _ _ ih =>
      have hst := (hadditive.onlyAdds index).grows_ok hs hanswer
      exact hst.trans (ih (hst.reachable hs))

/-- The attempt succeeds and adds the text to the code, of which its call is the last line. -/
def Attempt.Leaves (resolver : Resolver ρ) (attempt : Attempt ρ) (text : String) : Prop :=
  ∃ call t own, attempt.run resolver = .ok call t ∧ text = own ++ (call.render ++ ";" ++ "\n") ∧
    t.context.code.text = attempt.start.context.code.text ++ text

theorem Attempt.leaves_of_ok (attempt : Attempt ρ) (hadditive : resolver.Additive)
    (hstart : attempt.start.context.Reachable) {call : RuntimeCall}
    (h : attempt.run resolver = .ok call t) : ∃ text, attempt.Leaves resolver text := by
  obtain ⟨values, resolved, held, run⟩ := appendRun_of_ok h
  obtain ⟨prepared, hprepared, hholder⟩ := run.holder
  have hresolved : attempt.start.context.Grows prepared.context :=
    hprepared ▸ run.answers.grows hadditive hstart
  have hheld : prepared.context.Grows held.context :=
    (holdValue_onlyAdds hadditive.onlyAdds _).grows_ok (hresolved.reachable hstart) hholder
  obtain ⟨own, hown⟩ := (hresolved.trans hheld).code
  refine ⟨_, call, t, own, h, rfl, ?_⟩
  rw [run.emitted, Context.code_writeCall, hown, String.append_assoc]

/-- The code of assignments that are all compiled is that of the attempts, one after the other. -/
theorem compileAssignments_leaves (hadditive : resolver.Additive) {assignments : List Assignment}
    {calls : List RuntimeCall} (hs : s.context.Reachable)
    (h : compileAssignments resolver assignments s = .ok calls t) :
    ∃ texts, List.Forall₂ (Attempt.Leaves resolver) (assignmentAttempts resolver assignments s)
        texts ∧
      t.context.code.text = s.context.code.text ++ String.join texts := by
  induction assignments generalizing s calls with
  | nil =>
      cases h
      exact ⟨[], .nil, by simp⟩
  | cons assignment rest ih =>
      obtain ⟨call, u, hfirst, h⟩ := bind_ok h
      obtain ⟨others, v, hrest, hend⟩ := bind_ok h
      cases hend
      have hgrows := (compileAppend_onlyAdds hadditive.onlyAdds _ _ _).grows_ok hs hfirst
      obtain ⟨text, hleaves⟩ := Attempt.leaves_of_ok ⟨assignment, s⟩ hadditive hs hfirst
      obtain ⟨texts, htexts, hcode⟩ := ih (hgrows.reachable hs) hrest
      refine ⟨text :: texts, ?_, ?_⟩
      · simpa only [assignmentAttempts, hfirst] using .cons hleaves htexts
      · obtain ⟨made, after, own, hrun, -, hadded⟩ := hleaves
        cases hfirst.symm.trans hrun
        rw [hcode, hadded, String.join_cons, String.append_assoc]

/-- The code of statements is that of the attempts of those that are accepted. -/
theorem compileEach_leaves (hadditive : resolver.Additive) {statements : List Statement}
    {diagnostics : List Diagnostic} (hs : s.context.Reachable)
    (h : compileEach resolver statements s = .ok diagnostics t) :
    ∃ texts, List.Forall₂ (Attempt.Leaves resolver) (keptAttempts resolver statements s) texts ∧
      t.context.code.text = s.context.code.text ++ String.join texts := by
  induction statements generalizing s diagnostics with
  | nil =>
      cases h
      exact ⟨[], .nil, by simp⟩
  | cons statement rest ih =>
      rw [compileEach_cons] at h
      obtain ⟨first, u, hfirst, h⟩ := bind_ok h
      obtain ⟨others, v, hrest, hend⟩ := bind_ok h
      cases hend
      have hadds := compileAssignments_onlyAdds hadditive.onlyAdds statement.assignments
      rcases compileEach_singleton_cases resolver statement s with
        ⟨calls, v, message, hrun, heach⟩ | ⟨d, v, hrun, heach⟩ | ⟨f, v, hrun, heach⟩
      · cases hfirst.symm.trans heach
        have hcompiled := transaction_ok hrun
        have hgrows := hadds.grows_ok hs hcompiled
        obtain ⟨texts, htexts, hcode⟩ := compileAssignments_leaves hadditive hs hcompiled
        obtain ⟨more, hmore, hrestCode⟩ := ih (s := v.logged _) (hgrows.reachable hs) hrest
        refine ⟨texts ++ more, ?_, ?_⟩
        · simpa only [keptAttempts, hfirst, List.isEmpty_nil, if_true] using
            List.rel_append htexts hmore
        · rw [hrestCode, String.join_append, ← String.append_assoc, ← hcode]
          rfl
      · cases hfirst.symm.trans heach
        have hcontext := context_of_transaction hadds hs hrun
        obtain ⟨texts, htexts, hcode⟩ := ih (hcontext ▸ hs) hrest
        refine ⟨texts, ?_, hcontext ▸ hcode⟩
        simpa [keptAttempts, hfirst] using htexts
      · cases hfirst.symm.trans heach

theorem Attempt.Leaves.exists_ok {attempts : List (Attempt ρ)} {texts : List String}
    (h : List.Forall₂ (Attempt.Leaves resolver) attempts texts) :
    ∀ attempt ∈ attempts, ∃ call t, attempt.run resolver = .ok call t := by
  induction h with
  | nil => simp
  | cons hleaves _ ih =>
      obtain ⟨call, t, -, hrun, -⟩ := hleaves
      exact List.forall_mem_cons.mpr ⟨⟨call, t, hrun⟩, ih⟩

/-- Announcing the statements and counting the rejections does not touch the context. -/
theorem compileEach_of_compileStatementsWith {statements : List Statement}
    {diagnostics : List Diagnostic}
    (h : compileStatementsWith resolver statements s = .ok diagnostics t) :
    ∃ reported u, compileEach resolver statements (s.announced statements) = .ok reported u ∧
      t.context = u.context := by
  obtain ⟨_, u, hstart, h⟩ := bind_ok h
  cases hstart
  obtain ⟨reported, v, heach, h⟩ := bind_ok h
  refine ⟨reported, v, heach, ?_⟩
  split at h
  · cases h
    rfl
  · obtain ⟨_, w, hrecord, hend⟩ := bind_ok h
    cases hend
    exact record_ok hrecord

theorem compileStatementsWith_leaves (hadditive : resolver.Additive) {statements : List Statement}
    {diagnostics : List Diagnostic} (hs : s.context.Reachable)
    (h : compileStatementsWith resolver statements s = .ok diagnostics t) :
    ∃ texts, List.Forall₂ (Attempt.Leaves resolver)
        (keptAttempts resolver statements (s.announced statements)) texts ∧
      t.context.code.text = s.context.code.text ++ String.join texts := by
  obtain ⟨reported, u, heach, hcontext⟩ := compileEach_of_compileStatementsWith h
  rw [hcontext]
  exact compileEach_leaves (s := s.announced statements) hadditive hs heach

end Kept

/-- The trace of the attempt reaches the last stage. -/
def Attempt.reachesEmitted (resolver : Resolver ρ) (attempt : Attempt ρ) : Bool :=
  (attempt.trace resolver).contains (attempt.container.stageLine .emitted)

theorem Attempt.Ends.reachesEmitted_iff {attempt : Attempt ρ}
    (h : Attempt.Ends attempt.container (attempt.run resolver) (attempt.trace resolver)) :
    attempt.reachesEmitted resolver = true ↔ ∃ call t, attempt.run resolver = .ok call t := by
  rw [← h.emitted_iff]
  exact List.contains_iff_mem

/-- An attempt whose trace does not reach the last stage has no call. -/
theorem Attempt.Ends.call?_eq_none {attempt : Attempt ρ}
    (h : Attempt.Ends attempt.container (attempt.run resolver) (attempt.trace resolver))
    (hemitted : ¬ attempt.reachesEmitted resolver = true) : attempt.call? resolver = none := by
  cases hrun : attempt.run resolver with
  | ok call t => exact absurd (h.reachesEmitted_iff.mpr ⟨call, t, hrun⟩) hemitted
  | error failure t => exact value?_error hrun

/-- As long as the resolver keeps out of the codegen trace, what the compilation of statements adds
to this trace are the traces of its attempts, one after the other. Each of them is one line for
each stage that the assignment has passed, in order: for all stages, and with no rejection, exactly
if the assignment was compiled; otherwise not for all, and then one line with the diagnostic of its
rejection. Only attempts whose trace reaches the last stage have emitted a call. If the resolver
only adds to the context, the code is that of the accepted attempts, each with its call at the end,
and all of these are among the former. -/
theorem compileStatementsWith_trace (hresolver : ∀ expr, Untraced (resolver expr))
    (statements : List Statement) (hs : s.Traced) :
    (stateAfter (compileStatementsWith resolver statements) s).codegenTrace =
      s.codegenTrace ++ (statementAttempts resolver statements (s.announced statements)).flatMap
        (Attempt.trace resolver) ∧
    (∀ attempt ∈ statementAttempts resolver statements (s.announced statements),
      Attempt.Ends attempt.container (attempt.run resolver) (attempt.trace resolver) ∧
      (attempt.trace resolver = Stage.all.map attempt.container.stageLine ↔
        ∃ call t, attempt.run resolver = .ok call t) ∧
      (attempt.reachesEmitted resolver = true ↔ ∃ call t, attempt.run resolver = .ok call t)) ∧
    resolver.Makes s.context
      (((statementAttempts resolver statements (s.announced statements)).filter
        (Attempt.reachesEmitted resolver)).filterMap (Attempt.call? resolver))
      (contextAfter (compileStatementsWith resolver statements) s) ∧
    (resolver.Additive → s.context.Reachable → ∀ diagnostics t,
      compileStatementsWith resolver statements s = .ok diagnostics t →
      (keptAttempts resolver statements (s.announced statements)).Sublist
        ((statementAttempts resolver statements (s.announced statements)).filter
          (Attempt.reachesEmitted resolver)) ∧
      ∃ texts, List.Forall₂ (Attempt.Leaves resolver)
          (keptAttempts resolver statements (s.announced statements)) texts ∧
        t.context.code.text = s.context.code.text ++ String.join texts) := by
  have hquiet := Quiet.ofUntraced hresolver
  obtain ⟨hreaches, htraced⟩ := compileStatementsWith_tries hquiet statements hs
  have hends (attempt : Attempt ρ)
      (hmem : attempt ∈ statementAttempts resolver statements (s.announced statements)) :
      Attempt.Ends attempt.container (attempt.run resolver) (attempt.trace resolver) :=
    (Attempt.ends_and_reaches hquiet (htraced attempt hmem)).1
  refine ⟨hreaches.trace, fun attempt hmem => ?_, ?_,
    fun hadditive hreachable diagnostics t h => ?_⟩
  · have hend := hends attempt hmem
    exact ⟨hend, hend.all_iff, hend.reachesEmitted_iff⟩
  · have hcalls : ((statementAttempts resolver statements (s.announced statements)).filter
          (Attempt.reachesEmitted resolver)).filterMap (Attempt.call? resolver) =
        (statementAttempts resolver statements (s.announced statements)).filterMap
          (Attempt.call? resolver) := by
      rw [List.filterMap_filter]
      apply List.filterMap_congr
      intro attempt hmem
      split
      · rfl
      · next hemitted => exact ((hends attempt hmem).call?_eq_none hemitted).symm
    rw [hcalls, ← context_stateAfter]
    exact hreaches.makes
  · obtain ⟨texts, htexts, hcode⟩ := compileStatementsWith_leaves hadditive hreachable h
    refine ⟨?_, texts, htexts, hcode⟩
    have hsublist := keptAttempts_sublist resolver statements (s.announced statements)
    have hkept : ∀ attempt ∈ keptAttempts resolver statements (s.announced statements),
        attempt.reachesEmitted resolver = true := by
      intro attempt hmem
      have hend := hends attempt (hsublist.subset hmem)
      exact hend.reachesEmitted_iff.mpr (Attempt.Leaves.exists_ok htexts attempt hmem)
    simpa only [List.filter_eq_self.mpr hkept] using
      hsublist.filter (Attempt.reachesEmitted resolver)

/-- The first statement is rejected when one of its calls has been emitted. -/
def undoneStatements : List Statement :=
  [{ assignments :=
      [{ target := { container := .var "obj", indexes := [] }
         value := .var "obj" .synthetic
         span := .synthetic },
       { target := { container := .var "ghost", indexes := [] }
         value := .var "obj" .synthetic
         span := .synthetic }]
     span := .synthetic },
   appendToObj (.var "obj" .synthetic)]

theorem compileStatementsWith_trace_undone :
    ∃ (attempts kept : List (Attempt Unit)) (diagnostics : List Diagnostic) (t : CompileState Unit)
      (texts : List String),
      compileStatementsWith Expr.compile undoneStatements ⟨tracedContext, [], ()⟩ =
        .ok diagnostics t ∧
      t.codegenTrace = attempts.flatMap (Attempt.trace Expr.compile) ∧
      attempts.map (Attempt.trace Expr.compile) =
        [Stage.all.map (Container.var "obj").stageLine,
          ["zephir_array_update_multi rejected: Undeclared variable 'ghost'"],
          Stage.all.map (Container.var "obj").stageLine] ∧
      kept.length = 1 ∧
      kept.Sublist (attempts.filter (Attempt.reachesEmitted Expr.compile)) ∧
      List.Forall₂ (Attempt.Leaves Expr.compile) kept texts ∧
      t.context.code.text = String.join texts := by
  have hquiet (expr : Expr) : Quiet (Expr.compile : Resolver Unit) expr.compile :=
    Expr.compile_quiet expr
  have htraced : (CompileState.mk tracedContext [] ()).Traced := rfl
  have hstart : tracedContext.Reachable := .start _ _
  have hvalues : (value? (compileStatementsWith Expr.compile undoneStatements)
        ⟨tracedContext, [], ()⟩).isSome = true ∧
      (statementAttempts Expr.compile undoneStatements
          ((CompileState.mk tracedContext [] ()).announced undoneStatements)).map
            (Attempt.trace Expr.compile) =
        [Stage.all.map (Container.var "obj").stageLine,
          ["zephir_array_update_multi rejected: Undeclared variable 'ghost'"],
          Stage.all.map (Container.var "obj").stageLine] ∧
      (keptAttempts Expr.compile undoneStatements
        ((CompileState.mk tracedContext [] ()).announced undoneStatements)).length = 1 := by
    decide +kernel
  obtain ⟨hsucceeds, htraces, hcount⟩ := hvalues
  obtain ⟨htrace, -, -, hkept⟩ := compileStatementsWith_trace (fun expr => (hquiet expr).untraced)
    undoneStatements htraced
  rcases hrun : compileStatementsWith Expr.compile undoneStatements ⟨tracedContext, [], ()⟩ with
    ⟨diagnostics, t⟩ | ⟨failure, t⟩
  · obtain ⟨hsublist, texts, htexts, hcode⟩ :=
      hkept Expr.compile_additive hstart diagnostics t hrun
    rw [stateAfter_ok hrun] at htrace
    exact ⟨_, _, diagnostics, t, texts, rfl, htrace, htraces, hcount, hsublist, htexts, hcode⟩
  · simp [value?, hrun] at hsucceeds

end AppendLowering
