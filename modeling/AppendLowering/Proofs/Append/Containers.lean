import AppendLowering.Proofs.Append.Answers
import AppendLowering.Proofs.Code.Line

/-!
# One lowering for all containers

Which container an append goes to matters before the first index is compiled,
when the container is checked, and after the value is compiled, when the call is
emitted. Two appends with the same indexes and the same value, to containers
that both pass their checks, are compiled side by side: they fail alike, or
they give calls that differ in the container only. Their logs name different
functions, so the resolver must not go by the log.
-/

namespace AppendLowering

open CompileM

variable {ρ α β : Type}

/-- Two states in the same context, of a resolver in the same state, whatever was logged. -/
def SameButLog (s t : CompileState ρ) : Prop := s.context = t.context ∧ s.own = t.own

theorem SameButLog.mirrored : Mirrored (SameButLog : CompileState ρ → CompileState ρ → Prop) where
  symbols h := congrArg Context.symbols h.1
  relog _ _ h := h
  write {_ _ line} _ h := ⟨congrArg (·.write line) h.1, h.2⟩
  temporary span h := ⟨congrArg (fun c => (c.initTemporary span).2) h.1, h.2⟩

/-- The resolver is a function of the expression, the context and its own state. -/
def Resolver.IgnoresLog (resolver : Resolver ρ) : Prop :=
  ∀ expr, Agree SameButLog Eq (resolver expr) (resolver expr)

theorem Expr.compile_ignoresLog : Resolver.IgnoresLog (Expr.compile : Resolver ρ) :=
  Expr.compile_agree SameButLog.mirrored

/-- The results of two appends that differ in the container: the same failure in the same context,
or calls that differ in the container, each of them emitted last in otherwise the same context. -/
inductive Alike (left right : Container) :
    EStateM.Result Failure (CompileState ρ) RuntimeCall →
      EStateM.Result Failure (CompileState ρ) RuntimeCall → Prop
  | failed {failure : Failure} {s t : CompileState ρ} (h : SameButLog s t) :
      Alike left right (.error failure s) (.error failure t)
  | compiled {holder : String} {chain : KeyChain} {zts : Bool} {c : Context} {s t : CompileState ρ}
      (hleft : s.context = c.writeCall ⟨left, holder, chain, zts⟩)
      (hright : t.context = c.writeCall ⟨right, holder, chain, zts⟩) (hown : s.own = t.own) :
      Alike left right (.ok ⟨left, holder, chain, zts⟩ s) (.ok ⟨right, holder, chain, zts⟩ t)

namespace Alike

variable {left right : Container} {s t : CompileState ρ}

/-- What comes before the call fails alike or goes on alike. -/
theorem bind {same : α → β → Prop} {first : CompileM ρ α} {first' : CompileM ρ β}
    {next : α → CompileM ρ RuntimeCall} {next' : β → CompileM ρ RuntimeCall}
    (hfirst : Matches SameButLog same (first s) (first' t))
    (hnext : ∀ a b u v, same a b → SameButLog u v → Alike left right (next a u) (next' b v)) :
    Alike left right ((first >>= next) s) ((first' >>= next') t) := by
  change Alike left right (EStateM.bind first next s) (EStateM.bind first' next' t)
  unfold EStateM.bind
  generalize first s = result at hfirst ⊢
  generalize first' t = result' at hfirst ⊢
  cases hfirst with
  | ok hvalue hstate => exact hnext _ _ _ _ hvalue hstate
  | error hstate => exact .failed hstate

theorem onRejection {action action' : CompileM ρ RuntimeCall} {entry entry' : Diagnostic → LogEntry}
    (h : Alike left right (action s) (action' t)) :
    Alike left right (CompileM.onRejection entry action s)
      (CompileM.onRejection entry' action' t) := by
  unfold CompileM.onRejection
  generalize action s = result at h ⊢
  generalize action' t = result' at h ⊢
  cases h with
  | compiled hleft hright hown => exact .compiled hleft hright hown
  | @failed failure u v hstate =>
      cases failure with
      | rejected d => exact .failed hstate
      | fault f => exact .failed hstate

/-- Both go back from the same context to the same mark, which succeeds or fails for both. -/
theorem transaction {action action' : CompileM ρ RuntimeCall} (hst : SameButLog s t)
    (h : Alike left right (action s) (action' t)) :
    Alike left right (CompileM.transaction action s) (CompileM.transaction action' t) := by
  unfold CompileM.transaction
  generalize action s = result at h ⊢
  generalize action' t = result' at h ⊢
  cases h with
  | compiled hleft hright hown => exact .compiled hleft hright hown
  | @failed failure u v hstate =>
      cases failure with
      | fault f => exact .failed hstate
      | rejected d =>
          simp only [hst.1, hstate.1]
          cases v.context.rollback t.context.mark with
          | ok c => exact .failed ⟨rfl, hstate.2⟩
          | error f => exact .failed hstate

end Alike

section Appends

variable {resolver : Resolver ρ} {left right : Container} {span : Span} {s t : CompileState ρ}

/-- A container that passes its check changes nothing. -/
theorem reading_validate {container : Container}
    (h : container.validate span s.context = .ok ()) :
    (CompileM.reading (container.validate span) : CompileM ρ Unit) s = .ok () s := by
  simp only [CompileM.reading, h]

theorem lowerAppend_alike (hresolver : resolver.IgnoresLog) (indexes : List Expr) (value : Expr)
    (hst : SameButLog s t) (hleft : left.validate span s.context = .ok ())
    (hright : right.validate span t.context = .ok ()) :
    Alike left right (lowerAppend resolver ⟨left, indexes⟩ value span s)
      (lowerAppend resolver ⟨right, indexes⟩ value span t) := by
  have hmirrored : Mirrored (SameButLog : CompileState ρ → CompileState ρ → Prop) :=
    SameButLog.mirrored
  have hcheck : Matches SameButLog Eq
      ((CompileM.reading (left.validate span) : CompileM ρ Unit) s)
      ((CompileM.reading (right.validate span) : CompileM ρ Unit) t) := by
    rw [reading_validate hleft, reading_validate hright]
    exact .ok rfl hst
  apply Alike.bind hcheck
  intro _ _ s t _ hst
  apply Alike.bind (hmirrored.record _ _ s t hst)
  intro _ _ s t _ hst
  apply Alike.bind (resolveIndexes_agree hresolver span indexes s t hst)
  rintro values _ s t rfl hst
  apply Alike.bind (hmirrored.record _ _ s t hst)
  intro _ _ s t _ hst
  apply Alike.bind (classifyIndexes_agree hmirrored span .empty values s t hst)
  rintro chain _ s t rfl hst
  apply Alike.bind (hmirrored.record _ _ s t hst)
  intro _ _ s t _ hst
  apply Alike.bind ((holdValue_agree hmirrored hresolver value).withSpan span s t hst)
  rintro holder _ s t rfl hst
  apply Alike.bind (hmirrored.record _ _ s t hst)
  rintro _ _ ⟨c, log, own⟩ ⟨_, log', _⟩ _ ⟨rfl, rfl⟩
  -- from one and the same context, each side emits the call of its container
  exact .compiled rfl rfl rfl

theorem compileAppend_alike (hresolver : resolver.IgnoresLog) (indexes : List Expr) (value : Expr)
    (hst : SameButLog s t) (hleft : left.validate span s.context = .ok ())
    (hright : right.validate span t.context = .ok ()) :
    Alike left right (compileAppend resolver ⟨left, indexes⟩ value span s)
      (compileAppend resolver ⟨right, indexes⟩ value span t) :=
  (lowerAppend_alike hresolver indexes value hst hleft hright).onRejection.transaction hst

end Appends

/-- The arguments that follow those of the container in a call. -/
def RuntimeCall.trailing (call : RuntimeCall) : List String :=
  [call.valueArgument, CString.sized call.chain.keys, Nat.repr call.chain.slots] ++
    call.chain.arguments

theorem Context.statement_writeCall (c : Context) (call : RuntimeCall) :
    (c.writeCall call).code.text = c.code.text ++
      (Line.statement call.container.function (call.container.leading ++ call.trailing) ++
        "\n") := by
  have hline : call.render ++ ";" =
      Line.statement call.container.function (call.container.leading ++ call.trailing) := by
    rw [RuntimeCall.trailing, ← List.append_assoc]
    exact Line.render_eq (.call call)
  rw [Context.code_writeCall, hline]

/-- Appends of the same value at the same indexes, to any two containers that pass their checks,
fail for the same reason and in the same context, or they succeed with the same holder, the same
chain and the same mode. In the latter case the resolver, the symbols and the code before the call
are the same, and so is what the call passes after the arguments of its container. Its function,
these arguments and the header that it asks for are those of the container. -/
theorem compileAppend_same_for_containers {resolver : Resolver ρ} (hresolver : resolver.IgnoresLog)
    {left right : Container} (indexes : List Expr) (value : Expr) (span : Span) (s : CompileState ρ)
    (hleft : left.validate span s.context = .ok ())
    (hright : right.validate span s.context = .ok ()) :
    (∃ failure u v,
      compileAppend resolver ⟨left, indexes⟩ value span s = .error failure u ∧
      compileAppend resolver ⟨right, indexes⟩ value span s = .error failure v ∧
      u.context = v.context ∧ u.own = v.own) ∨
    ∃ holder chain zts u v, ∃ (before : Context) (trailing : List String),
      compileAppend resolver ⟨left, indexes⟩ value span s = .ok ⟨left, holder, chain, zts⟩ u ∧
      compileAppend resolver ⟨right, indexes⟩ value span s = .ok ⟨right, holder, chain, zts⟩ v ∧
      u.own = v.own ∧
      u.context.config = v.context.config ∧
      u.context.symbols = v.context.symbols ∧
      u.context.code.text = before.code.text ++
        (Line.statement left.function (left.leading ++ trailing) ++ "\n") ∧
      v.context.code.text = before.code.text ++
        (Line.statement right.function (right.leading ++ trailing) ++ "\n") ∧
      u.context.headers = before.headers.add left.header ∧
      v.context.headers = before.headers.add right.header := by
  have halike := compileAppend_alike hresolver indexes value ⟨rfl, rfl⟩ hleft hright
  generalize compileAppend resolver ⟨left, indexes⟩ value span s = result at halike ⊢
  generalize compileAppend resolver ⟨right, indexes⟩ value span s = result' at halike ⊢
  cases halike with
  | @failed failure u v hstate => exact .inl ⟨failure, u, v, rfl, rfl, hstate.1, hstate.2⟩
  | @compiled holder chain zts before u v hcalled hcalled' hown =>
      refine .inr ⟨holder, chain, zts, u, v, before,
        RuntimeCall.trailing ⟨left, holder, chain, zts⟩, rfl, rfl, hown, ?_⟩
      rw [hcalled, hcalled', Context.statement_writeCall, Context.statement_writeCall]
      exact ⟨rfl, rfl, rfl, rfl, rfl, rfl⟩

/-- Compiles expressions and counts them. -/
def countingResolver : Resolver Nat := fun expr s => expr.compile { s with own := s.own + 1 }

theorem countingResolver_ignoresLog : countingResolver.IgnoresLog := by
  intro expr s t hst
  exact Expr.compile_ignoresLog expr _ _ ⟨hst.1, congrArg (· + 1) hst.2⟩

/-- The same append to a variable and to a static property. -/
theorem compileAppend_same_for_containers_static :
    ∃ holder chain zts, ∃ (u v : CompileState Nat) (before : Context) (trailing : List String),
      compileAppend countingResolver ⟨.var "obj", [.literal (.int 3) .synthetic]⟩
        (.array [.var "obj" .synthetic] .synthetic) .synthetic ⟨tracedContext, [], 0⟩ =
          .ok ⟨.var "obj", holder, chain, zts⟩ u ∧
      compileAppend countingResolver ⟨.staticProperty "ce" "list", [.literal (.int 3) .synthetic]⟩
        (.array [.var "obj" .synthetic] .synthetic) .synthetic ⟨tracedContext, [], 0⟩ =
          .ok ⟨.staticProperty "ce" "list", holder, chain, zts⟩ v ∧
      u.own = v.own ∧ u.context.symbols = v.context.symbols ∧
      u.context.code.text = before.code.text ++
        (Line.statement "zephir_array_update_multi" (["&obj"] ++ trailing) ++ "\n") ∧
      v.context.code.text = before.code.text ++
        (Line.statement "zephir_update_static_property_array_multi_ce"
          (["ce", "SL(\"list\")"] ++ trailing) ++ "\n") := by
  have hleft : (Container.var "obj").validate .synthetic tracedContext = .ok () := by decide
  have hright : (Container.staticProperty "ce" "list").validate .synthetic tracedContext = .ok () :=
    rfl
  have hsucceeds : (value? (compileAppend countingResolver
      ⟨.var "obj", [.literal (.int 3) .synthetic]⟩ (.array [.var "obj" .synthetic] .synthetic)
      .synthetic) ⟨tracedContext, [], 0⟩).isSome = true := by decide +kernel
  rcases compileAppend_same_for_containers countingResolver_ignoresLog
    [.literal (.int 3) .synthetic] (.array [.var "obj" .synthetic] .synthetic) .synthetic
    ⟨tracedContext, [], 0⟩ hleft hright with
    ⟨failure, u, v, hfailed, -⟩ |
    ⟨holder, chain, zts, u, v, before, trailing, hu, hv, hown, -, hsymbols, hcode, hcode', -⟩
  · simp [value?, hfailed] at hsucceeds
  · exact ⟨holder, chain, zts, u, v, before, trailing, hu, hv, hown, hsymbols, hcode, hcode'⟩

end AppendLowering
