import AppendLowering.Proofs.Compile.Additive

/-!
# Rejections leave no trace

A transaction around an action that only adds gives the old context back when
the action is rejected, and adds no fault of its own. Appends, assignments and
statements are such transactions, the statement around those of its
assignments, for every resolver that only adds.
-/

namespace AppendLowering

namespace CompileM

variable {ρ α : Type} {faults : Fault → Prop} {action : CompileM ρ α} {s : CompileState ρ}

/-- Undoing an action that only adds always succeeds, and gives the whole context back. -/
theorem transaction_eq (h : OnlyAdds faults action) (hs : s.context.Reachable) :
    transaction action s =
      match action s with
      | .error (.rejected d) t => .error (.rejected d) { t with context := s.context }
      | result => result := by
  unfold transaction
  rcases hrun : action s with ⟨a, t⟩ | ⟨d | f, t⟩
  · rfl
  · have hback := (h.grows_error hs hrun).rollback_mark hs.wellFormed
    simp only [hback]
  · rfl

theorem fault_of_transaction (h : OnlyAdds faults action) (hs : s.context.Reachable) {f : Fault}
    {t : CompileState ρ} (hrun : transaction action s = .error (.fault f) t) :
    action s = .error (.fault f) t := by
  rw [transaction_eq h hs] at hrun
  rcases haction : action s with ⟨a, u⟩ | ⟨d | g, u⟩ <;> rw [haction] at hrun <;> cases hrun
  rfl

theorem context_of_transaction (h : OnlyAdds faults action) (hs : s.context.Reachable)
    {d : Diagnostic} {t : CompileState ρ} (hrun : transaction action s = .error (.rejected d) t) :
    t.context = s.context := by
  rw [transaction_eq h hs] at hrun
  rcases haction : action s with ⟨a, u⟩ | ⟨e | f, u⟩ <;> rw [haction] at hrun <;> cases hrun
  rfl

theorem OnlyAdds.transaction (h : OnlyAdds faults action) :
    OnlyAdds faults (CompileM.transaction action) where
  grows s hs := by
    have hgrows := h.grows s hs
    revert hgrows
    unfold contextAfter
    rw [transaction_eq h hs]
    rcases action s with ⟨a, t⟩ | ⟨d | f, t⟩
    · exact id
    · exact fun _ => .refl
    · exact id
  fault s f t hs hrun := h.fault s f t hs (fault_of_transaction h hs hrun)

/-- From `s`, a rejection of `action` leaves the context of `s`, and wherever its `body` is
rejected the context can be rolled back to that of `s`. -/
structure Undoes (body action : CompileM ρ α) (s : CompileState ρ) : Prop where
  restored (d : Diagnostic) (t : CompileState ρ) :
    action s = .error (.rejected d) t → t.context = s.context
  rollback (d : Diagnostic) (t : CompileState ρ) :
    body s = .error (.rejected d) t → t.context.rollback s.context.mark = .ok s.context

end CompileM

open CompileM

variable {ρ : Type} {faults : Fault → Prop} {resolver : Resolver ρ}

/-- The resolver changes a context by temporaries, lines of code and headers only, whether it
succeeds or fails. -/
def Resolver.Additive (resolver : Resolver ρ) : Prop :=
  ∀ (expr : Expr) (s : CompileState ρ), s.context.Reachable →
    s.context.Grows (contextAfter (resolver expr) s)

theorem Resolver.Additive.onlyAdds (h : resolver.Additive) (expr : Expr) :
    OnlyAdds (fun _ => True) (resolver expr) where
  grows s hs := h expr s hs
  fault _ _ _ _ _ := trivial

theorem Expr.compile_additive : Resolver.Additive (Expr.compile : Resolver ρ) := by
  intro expr s hs
  have hadds : OnlyAdds (fun _ => True) (expr.compile : CompileM ρ Resolved) :=
    Expr.compile_onlyAdds expr
  exact hadds.grows s hs

theorem compileAppend_onlyAdds (hresolver : ∀ expr, OnlyAdds faults (resolver expr))
    (target : Target) (value : Expr) (span : Span) :
    OnlyAdds faults (compileAppend resolver target value span) :=
  ((lowerAppend_onlyAdds hresolver target value span).onRejection _).transaction

theorem compileAssignments_onlyAdds (hresolver : ∀ expr, OnlyAdds faults (resolver expr))
    (assignments : List Assignment) :
    OnlyAdds faults (compileAssignments resolver assignments) := by
  induction assignments with
  | nil => exact .pure []
  | cons assignment rest ih =>
      refine .bind (compileAppend_onlyAdds hresolver _ _ _) fun call => ?_
      exact ih.bind fun calls => .pure _

theorem compileStatement_onlyAdds (hresolver : ∀ expr, OnlyAdds faults (resolver expr))
    (statement : Statement) : OnlyAdds faults (compileStatement resolver statement) :=
  (compileAssignments_onlyAdds hresolver statement.assignments).transaction

theorem compileAppend_undoes (h : resolver.Additive) {s : CompileState ρ}
    (hs : s.context.Reachable) (target : Target) (value : Expr) (span : Span) :
    Undoes (lowerAppend resolver target value span)
      (compileAppend resolver target value span) s := by
  have hadds := lowerAppend_onlyAdds h.onlyAdds target value span
  constructor
  · intro d t hrun
    exact context_of_transaction (hadds.onRejection _) hs hrun
  · intro d t hrun
    exact (hadds.grows_error hs hrun).rollback_mark hs.wellFormed

theorem compileStatement_undoes (h : resolver.Additive) {s : CompileState ρ}
    (hs : s.context.Reachable) (statement : Statement) :
    Undoes (compileAssignments resolver statement.assignments)
      (compileStatement resolver statement) s := by
  have hadds := compileAssignments_onlyAdds h.onlyAdds statement.assignments
  constructor
  · intro d t hrun
    exact context_of_transaction hadds hs hrun
  · intro d t hrun
    exact (hadds.grows_error hs hrun).rollback_mark hs.wellFormed

/-- Whatever is rejected, an append, an assignment or a statement, at whatever stage, leaves the
context exactly as it was, and undoing it raises no fault. -/
theorem rejection_restores_context (hresolver : resolver.Additive) (s : CompileState ρ)
    (hs : s.context.Reachable) :
    (∀ target value span, Undoes (lowerAppend resolver target value span)
      (compileAppend resolver target value span) s) ∧
    (∀ assignment : Assignment,
      Undoes (lowerAppend resolver assignment.target assignment.value assignment.span)
        (compileAssignment resolver assignment) s) ∧
    (∀ statement : Statement, Undoes (compileAssignments resolver statement.assignments)
      (compileStatement resolver statement) s) := by
  refine ⟨compileAppend_undoes hresolver hs, fun assignment => ?_, fun statement => ?_⟩
  · exact compileAppend_undoes hresolver hs assignment.target assignment.value assignment.span
  · exact compileStatement_undoes hresolver hs statement

/-- A context that traces everything, with a header and a variable `obj` of its own. -/
def tracedContext : Context :=
  .ofSymbols (.make true [] false 3 { zts := true, extraHeaders := [.kernel "main"] })
    (.ofList [{ Variable.declare "obj" .dynamic .localSlot .synthetic with initialized := true }])

/-- The first assignment can be compiled; the second fails two array literals deep. -/
def nestedFailure : Statement :=
  { assignments :=
      [{ target := { container := .var "obj", indexes := [.literal (.int 1) .synthetic] }
         value := .var "obj" .synthetic
         span := .synthetic },
       { target := { container := .var "obj", indexes := [] }
         value := .array [.literal .null .synthetic,
           .array [.var "ghost" .synthetic] .synthetic] .synthetic
         span := .synthetic }]
    span := .synthetic }

theorem rejection_restores_context_nested :
    ∃ d t, compileStatement Expr.compile nestedFailure ⟨tracedContext, [], ()⟩ =
      .error (.rejected d) t ∧ t.context = tracedContext := by
  have hrejected : (rejection? (compileStatement Expr.compile nestedFailure)
      ⟨tracedContext, [], ()⟩).isSome = true := by decide +kernel
  rcases hrun : compileStatement Expr.compile nestedFailure ⟨tracedContext, [], ()⟩ with
    ⟨calls, t⟩ | ⟨d | f, t⟩
  · simp [rejection?, hrun] at hrejected
  · have hstart : tracedContext.Reachable := .start _ _
    have hall := rejection_restores_context Expr.compile_additive ⟨tracedContext, [], ()⟩ hstart
    exact ⟨d, t, rfl, (hall.2.2 nestedFailure).restored d t hrun⟩
  · simp [rejection?, hrun] at hrejected

end AppendLowering
