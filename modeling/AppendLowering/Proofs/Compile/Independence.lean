import AppendLowering.Proofs.Compile.Parallel

/-!
# Rejected statements could as well be left out

Compiling a list of statements gives one diagnostic for each statement that is
rejected at its turn, in order. The context that results is the one that the
accepted statements give when they are compiled alone.
-/

namespace AppendLowering

open CompileM

variable {ρ ρ' : Type}

/-- The states of two runs in the same reachable context. -/
def SameContext (s : CompileState ρ) (t : CompileState ρ') : Prop :=
  s.context = t.context ∧ s.context.Reachable

theorem SameContext.respected :
    Respected (SameContext : CompileState ρ → CompileState ρ' → Prop) where
  left h := h.2
  right h := h.1 ▸ h.2
  symbols h := congrArg Context.symbols h.1
  relog _ _ h := h
  write {_ _ line} _ h := ⟨congrArg (·.write line) h.1, (Context.Grows.write _ line).reachable h.2⟩
  temporary span h :=
    ⟨congrArg (fun c => (c.initTemporary span).2) h.1,
      (Context.Grows.initTemporary _ span).reachable h.2⟩
  call call h :=
    ⟨congrArg (fun c : Context => c.writeCall { call with zts := c.config.codegen.zts }) h.1,
      (Context.Grows.writeCall _ _).reachable h.2⟩
  restore h _ := h

theorem Expr.compile_faultless (expr : Expr) :
    OnlyAdds (fun _ => False) (expr.compile : CompileM ρ Resolved) :=
  Expr.compile_onlyAdds expr

/-- A statement fares alike in equal contexts, whatever was logged before. -/
theorem compileStatement_sameContext (statement : Statement) :
    Agree SameContext SameCalls
      (compileStatement Expr.compile statement : CompileM ρ (List RuntimeCall))
      (compileStatement Expr.compile statement : CompileM ρ' (List RuntimeCall)) :=
  compileStatement_agree SameContext.respected (Expr.compile_agree SameContext.respected.toMirrored)
    Expr.compile_faultless Expr.compile_faultless statement

/-- Statements compiled one after the other, each of them with the diagnostic that rejects it at
its turn, if one does. -/
inductive Run (ρ : Type) : Context → List (Statement × Option Diagnostic) → Context → Prop
  | done {c} : Run ρ c [] c
  | accept {statement rest c' calls} {s t : CompileState ρ}
      (h : compileStatement Expr.compile statement s = .ok calls t)
      (tail : Run ρ t.context rest c') : Run ρ s.context ((statement, none) :: rest) c'
  | reject {statement rest c' d} {s t : CompileState ρ}
      (h : compileStatement Expr.compile statement s = .error (.rejected d) t)
      (tail : Run ρ t.context rest c') : Run ρ s.context ((statement, some d) :: rest) c'

/-- The statements without a diagnostic. -/
def accepted (verdicts : List (Statement × Option Diagnostic)) : List Statement :=
  (verdicts.filter fun verdict => verdict.2.isNone).map Prod.fst

theorem mem_of_accepted {verdicts : List (Statement × Option Diagnostic)} {statement : Statement}
    (h : statement ∈ accepted verdicts) : statement ∈ verdicts.map Prod.fst := by
  obtain ⟨verdict, hverdict, rfl⟩ := List.mem_map.mp h
  exact List.mem_map_of_mem (List.mem_filter.mp hverdict).1

section Each

variable {resolver : Resolver ρ} {statement : Statement} {s t : CompileState ρ}

/-- After an accepted statement the others are compiled with one more entry in the log. -/
theorem compileEach_of_accepted {calls : List RuntimeCall}
    (h : compileStatement resolver statement s = .ok calls t) (rest : List Statement) :
    ∃ log, compileEach resolver (statement :: rest) s =
      compileEach resolver rest { t with log } := by
  refine ⟨t.log.record t.context.config (.debug ("let at " ++ statement.span.display ++ ": " ++
    Nat.repr calls.length ++ " calls")), ?_⟩
  rw [compileEach]
  simp only [bind, EStateM.bind, attempt, h, record]

/-- The diagnostic of a rejected statement comes before those of the others. -/
theorem compileEach_of_rejected {d : Diagnostic} {rest : List Statement} {ds : List Diagnostic}
    {u : CompileState ρ} (h : compileStatement resolver statement s = .error (.rejected d) t)
    (hrest : compileEach resolver rest t = .ok ds u) :
    compileEach resolver (statement :: rest) s = .ok (d :: ds) u := by
  rw [compileEach]
  simp only [bind, EStateM.bind, attempt, h, hrest]
  rfl

/-- Announcing the statements and counting the rejections changes the log only. -/
theorem compileStatements_of_each (statements : List Statement) (s : CompileState ρ) :
    ∃ log, ∀ ds t, compileEach Expr.compile statements { s with log } = .ok ds t →
      ∃ t', compileStatements statements s = .ok ds t' ∧ t'.context = t.context := by
  refine ⟨s.log.record s.context.config (.phase LogEntry.phaseIndent
    ("Lowering " ++ Nat.repr statements.length ++ " statements")), ?_⟩
  intro ds t h
  unfold compileStatements compileStatementsWith
  simp only [bind, EStateM.bind, record, h]
  split
  · exact ⟨t, rfl, rfl⟩
  · exact ⟨_, rfl, rfl⟩

end Each

/-- Every list of statements can be run to its end, and the diagnostics are those of the run. -/
theorem compileEach_run (statements : List Statement) (s : CompileState ρ)
    (hs : s.context.Reachable) :
    ∃ verdicts t, verdicts.map Prod.fst = statements ∧ Run ρ s.context verdicts t.context ∧
      compileEach Expr.compile statements s = .ok (verdicts.filterMap Prod.snd) t := by
  induction statements generalizing s with
  | nil => exact ⟨[], s, rfl, .done, rfl⟩
  | cons statement rest ih =>
      have hadds : OnlyAdds (fun _ => False)
          (compileStatement Expr.compile statement : CompileM ρ (List RuntimeCall)) :=
        compileStatement_onlyAdds Expr.compile_faultless statement
      rcases hrun : compileStatement Expr.compile statement s with ⟨calls, t⟩ | ⟨d | f, t⟩
      · obtain ⟨log, heach⟩ := compileEach_of_accepted hrun rest
        have ht : t.context.Reachable := (hadds.grows_ok hs hrun).reachable hs
        obtain ⟨verdicts, u, hmap, htail, hrest⟩ := ih { t with log } ht
        refine ⟨(statement, none) :: verdicts, u, by simp [hmap], .accept hrun htail, ?_⟩
        exact heach.trans hrest
      · have ht : t.context.Reachable := (hadds.grows_error hs hrun).reachable hs
        obtain ⟨verdicts, u, hmap, htail, hrest⟩ := ih t ht
        refine ⟨(statement, some d) :: verdicts, u, by simp [hmap], .reject hrun htail, ?_⟩
        exact compileEach_of_rejected hrun hrest
      · exact (hadds.fault s f t hs hrun).elim

/-- The statements of a function are run to their end, too. -/
theorem compileStatements_run (statements : List Statement) (s : CompileState ρ)
    (hs : s.context.Reachable) :
    ∃ verdicts t, verdicts.map Prod.fst = statements ∧ Run ρ s.context verdicts t.context ∧
      compileStatements statements s = .ok (verdicts.filterMap Prod.snd) t := by
  obtain ⟨log, hall⟩ := compileStatements_of_each statements s
  obtain ⟨verdicts, u, hmap, run, heach⟩ := compileEach_run statements { s with log } hs
  obtain ⟨t, ht, hcontext⟩ := hall _ _ heach
  exact ⟨verdicts, t, hmap, hcontext ▸ run, ht⟩

/-- Compiling only what a run accepts rejects nothing and ends in the context of the run. -/
theorem Run.compileEach_accepted {c c' : Context} {verdicts : List (Statement × Option Diagnostic)}
    (run : Run ρ c verdicts c') (hc : c.Reachable) (s : CompileState ρ) (hs : s.context = c) :
    ∃ t, compileEach Expr.compile (accepted verdicts) s = .ok [] t ∧ t.context = c' := by
  induction run generalizing s with
  | done => exact ⟨s, rfl, hs⟩
  | @accept statement rest c' calls s₀ t₀ h tail ih =>
      have hmatch := compileStatement_sameContext statement s₀ s ⟨hs.symm, hc⟩
      rw [h] at hmatch
      generalize hrun : compileStatement Expr.compile statement s = result at hmatch
      cases hmatch with
      | @ok _ calls' _ t _ hstate =>
          obtain ⟨log, heach⟩ := compileEach_of_accepted hrun (accepted rest)
          obtain ⟨u, hu, hcontext⟩ := ih hstate.2 { t with log } hstate.1.symm
          exact ⟨u, heach.trans hu, hcontext⟩
  | @reject statement rest c' d s₀ t₀ h tail ih =>
      have hsame := (compileStatement_undoes Expr.compile_additive hc statement).restored d t₀ h
      exact ih (hsame ▸ hc) s (hs.trans hsame.symm)

/-- The diagnostics are those of the statements that are rejected at their turn, in order. The
accepted statements alone, from the same context, give no diagnostic and the same context. -/
theorem compileStatements_accepted (statements : List Statement) (s t : CompileState ρ)
    (hs : s.context.Reachable) (hst : t.context = s.context) :
    ∃ verdicts s' t',
      verdicts.map Prod.fst = statements ∧
      Run ρ s.context verdicts s'.context ∧
      compileStatements statements s = .ok (verdicts.filterMap Prod.snd) s' ∧
      compileStatements (accepted verdicts) t = .ok [] t' ∧
      t'.context = s'.context := by
  obtain ⟨log, hall⟩ := compileStatements_of_each statements s
  obtain ⟨verdicts, u, hmap, run, heach⟩ := compileEach_run statements { s with log } hs
  obtain ⟨s', hs', hcontext⟩ := hall _ _ heach
  obtain ⟨log', honly⟩ := compileStatements_of_each (accepted verdicts) t
  obtain ⟨v, hreplay, hv⟩ := run.compileEach_accepted hs { t with log := log' } hst
  obtain ⟨t', ht', hcontext'⟩ := honly _ _ hreplay
  refine ⟨verdicts, s', t', hmap, ?_, hs', ht', ?_⟩
  · exact hcontext ▸ run
  · calc t'.context = v.context := hcontext'
      _ = u.context := hv
      _ = s'.context := hcontext.symm

/-- One append to the variable `obj`. -/
def appendToObj (value : Expr) : Statement :=
  { assignments :=
      [{ target := { container := .var "obj", indexes := [] }, value, span := .synthetic }]
    span := .synthetic }

/-- The second statement has emitted code and declared a temporary when it is rejected. -/
def rejectedBetween : List Statement :=
  [appendToObj (.var "obj" .synthetic), appendToObj (.array [.var "ghost" .synthetic] .synthetic),
    appendToObj (.literal (.int 7) .synthetic)]

theorem compileStatements_accepted_between :
    ∃ (verdicts : List (Statement × Option Diagnostic)) (s' t' : CompileState Unit),
      verdicts.map Prod.fst = rejectedBetween ∧
      Run Unit tracedContext verdicts s'.context ∧
      (verdicts.filterMap Prod.snd).length = 1 ∧
      compileStatements (accepted verdicts) ⟨tracedContext, [], ()⟩ = .ok [] t' ∧
      t'.context = s'.context := by
  have hcount : (value? (compileStatements rejectedBetween) ⟨tracedContext, [], ()⟩).map
      List.length = some 1 := by decide +kernel
  have hstart : tracedContext.Reachable := .start _ _
  obtain ⟨verdicts, s', t', hmap, run, hall, honly, hcontext⟩ :=
    compileStatements_accepted rejectedBetween ⟨tracedContext, [], ()⟩ ⟨tracedContext, [], ()⟩
      hstart rfl
  simp only [value?, hall, Option.map_some, Option.some.injEq] at hcount
  exact ⟨verdicts, s', t', hmap, run, hcount, honly, hcontext⟩

end AppendLowering
