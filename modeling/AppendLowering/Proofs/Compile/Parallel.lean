import AppendLowering.Proofs.Compile.Rollback

/-!
# Runs in parallel

Two runs of the lowering are compared step by step. A relation between their
states is respected by the lowering when both sides see the same symbols and
each primitive step keeps it, whatever the logs say. Two runs that start in
related states then end in the same way, in related states. Calls are kept
apart from the other lines: each run gives them the mode of its configuration.
-/

namespace AppendLowering

/-- The runtime call that a line makes. -/
def Line.call? : Line → Option RuntimeCall
  | .call made => some made
  | _ => none

/-- The call as it is made with threads or without. -/
def RuntimeCall.inMode (zts : Bool) (call : RuntimeCall) : RuntimeCall := { call with zts }

/-- The same calls, whatever their modes. -/
def SameCalls (calls calls' : List RuntimeCall) : Prop :=
  calls.map (RuntimeCall.inMode false) = calls'.map (RuntimeCall.inMode false)

namespace CompileM

variable {ρ ρ' α α' β β' : Type} {related : CompileState ρ → CompileState ρ' → Prop}

/-- Results of the same kind, with values and states that correspond and with equal failures. -/
inductive Matches (related : CompileState ρ → CompileState ρ' → Prop) (same : α → α' → Prop) :
    EStateM.Result Failure (CompileState ρ) α → EStateM.Result Failure (CompileState ρ') α' → Prop
  | ok {a a' s t} (hvalue : same a a') (hstate : related s t) :
      Matches related same (.ok a s) (.ok a' t)
  | error {failure s t} (hstate : related s t) :
      Matches related same (.error failure s) (.error failure t)

/-- Acceptances with values that correspond, or the same rejection. -/
inductive SameVerdict (same : α → α' → Prop) : Except Diagnostic α → Except Diagnostic α' → Prop
  | accepted {a a'} (hvalue : same a a') : SameVerdict same (.ok a) (.ok a')
  | rejected (d : Diagnostic) : SameVerdict same (.error d) (.error d)

/-- From related states, the two actions end in the same way. -/
def Agree (related : CompileState ρ → CompileState ρ' → Prop) (same : α → α' → Prop)
    (left : CompileM ρ α) (right : CompileM ρ' α') : Prop :=
  ∀ s t, related s t → Matches related same (left s) (right t)

namespace Agree

variable {same : α → α' → Prop} {same' : β → β' → Prop}
variable {left : CompileM ρ α} {right : CompileM ρ' α'}

theorem pure {a : α} {a' : α'} (h : same a a') :
    Agree related same (pure a : CompileM ρ α) (pure a' : CompileM ρ' α') :=
  fun _ _ hst => .ok h hst

theorem bind {next : α → CompileM ρ β} {next' : α' → CompileM ρ' β'}
    (hfirst : Agree related same left right)
    (hnext : ∀ a a', same a a' → Agree related same' (next a) (next' a')) :
    Agree related same' (left >>= next) (right >>= next') := by
  intro s t hst
  change Matches related same' (EStateM.bind left next s) (EStateM.bind right next' t)
  have hmatch := hfirst s t hst
  unfold EStateM.bind
  generalize left s = result at hmatch ⊢
  generalize right t = result' at hmatch ⊢
  cases hmatch with
  | ok hvalue hstate => exact hnext _ _ hvalue _ _ hstate
  | error hstate => exact .error hstate

theorem reject (cause : Diagnostic.Cause) (span : Span) :
    Agree related same (CompileM.reject cause span : CompileM ρ α)
      (CompileM.reject cause span : CompileM ρ' α') :=
  fun _ _ hst => .error hst

theorem withSpan (h : Agree related same left right) (span : Span) :
    Agree related same (CompileM.withSpan span left) (CompileM.withSpan span right) := by
  intro s t hst
  have hmatch := h s t hst
  unfold CompileM.withSpan
  generalize left s = result at hmatch ⊢
  generalize right t = result' at hmatch ⊢
  cases hmatch with
  | ok hvalue hstate => exact .ok hvalue hstate
  | @error failure _ _ hstate => cases failure <;> exact .error hstate

theorem attempt (h : Agree related same left right) :
    Agree related (SameVerdict same) (CompileM.attempt left) (CompileM.attempt right) := by
  intro s t hst
  have hmatch := h s t hst
  unfold CompileM.attempt
  generalize left s = result at hmatch ⊢
  generalize right t = result' at hmatch ⊢
  cases hmatch with
  | ok hvalue hstate => exact .ok (.accepted hvalue) hstate
  | @error failure _ _ hstate =>
      cases failure with
      | rejected d => exact .ok (.rejected d) hstate
      | fault f => exact .error hstate

end Agree

/-- What the stages of the lowering need of a relation between states: it relates states with the
same symbols, holds whatever the logs, and is kept by fresh temporaries and by lines that call
nothing. -/
structure Mirrored (related : CompileState ρ → CompileState ρ' → Prop) : Prop where
  symbols {s t} : related s t → s.context.symbols = t.context.symbols
  relog {s t} (log log' : Log) : related s t → related { s with log } { t with log := log' }
  write {s t} {line : Line} (hline : line.call? = none) : related s t →
    related { s with context := s.context.write line } { t with context := t.context.write line }
  temporary {s t} (span : Span) : related s t →
    related { s with context := (s.context.initTemporary span).2 }
      { t with context := (t.context.initTemporary span).2 }

/-- What the lowering as a whole needs of a relation between states: the contexts are reachable,
emitting a call keeps it, and so does going back. -/
structure Respected (related : CompileState ρ → CompileState ρ' → Prop) : Prop
    extends Mirrored related where
  left {s t} : related s t → s.context.Reachable
  right {s t} : related s t → t.context.Reachable
  call {s t} (call : RuntimeCall) : related s t →
    related
      { s with context := s.context.writeCall { call with zts := s.context.config.codegen.zts } }
      { t with context := t.context.writeCall { call with zts := t.context.config.codegen.zts } }
  restore {s t s' t'} : related s t → related s' t' →
    related { s' with context := s.context } { t' with context := t.context }

namespace Mirrored

variable (h : Mirrored related)

include h

theorem record (entry entry' : LogEntry) :
    Agree related Eq (CompileM.record entry : CompileM ρ Unit) (CompileM.record entry') :=
  fun _ _ hst => .ok rfl (h.relog _ _ hst)

theorem agree_write {line : Line} (hline : line.call? = none) :
    Agree related Eq (CompileM.write line : CompileM ρ Unit) (CompileM.write line) :=
  fun _ _ hst => .ok rfl (h.write hline hst)

theorem agree_initTemporary (span : Span) :
    Agree related Eq (CompileM.initTemporary span : CompileM ρ String)
      (CompileM.initTemporary span) := by
  intro s t hst
  refine .ok ?_ (h.temporary span hst)
  simp only [h.symbols hst]

/-- A query that looks at the symbols only is answered alike. -/
theorem reading {query : Context → Except Failure α}
    (hquery : ∀ c d : Context, c.symbols = d.symbols → query c = query d) :
    Agree related Eq (CompileM.reading query : CompileM ρ α) (CompileM.reading query) := by
  intro s t hst
  unfold CompileM.reading
  rw [hquery _ _ (h.symbols hst)]
  cases query t.context with
  | ok a => exact .ok rfl hst
  | error failure => exact .error hst

theorem onRejection {same : α → α' → Prop} {left : CompileM ρ α} {right : CompileM ρ' α'}
    (hagree : Agree related same left right) (entry entry' : Diagnostic → LogEntry) :
    Agree related same (CompileM.onRejection entry left) (CompileM.onRejection entry' right) := by
  intro s t hst
  have hmatch := hagree s t hst
  unfold CompileM.onRejection
  generalize left s = result at hmatch ⊢
  generalize right t = result' at hmatch ⊢
  cases hmatch with
  | ok hvalue hstate => exact .ok hvalue hstate
  | @error failure _ _ hstate =>
      cases failure with
      | rejected d => exact .error (h.relog _ _ hstate)
      | fault f => exact .error hstate

end Mirrored

theorem Respected.transaction (h : Respected related) {same : α → α' → Prop} {left : CompileM ρ α}
    {right : CompileM ρ' α'} {faults faults' : Fault → Prop} (hleft : OnlyAdds faults left)
    (hright : OnlyAdds faults' right) (hagree : Agree related same left right) :
    Agree related same (CompileM.transaction left) (CompileM.transaction right) := by
  intro s t hst
  have hmatch := hagree s t hst
  rw [transaction_eq hleft (h.left hst), transaction_eq hright (h.right hst)]
  generalize left s = result at hmatch ⊢
  generalize right t = result' at hmatch ⊢
  cases hmatch with
  | ok hvalue hstate => exact .ok hvalue hstate
  | @error failure _ _ hstate =>
      cases failure with
      | rejected d => exact .error (h.restore hst hstate)
      | fault f => exact .error hstate

end CompileM

open CompileM

section SymbolsOnly

variable {c d : Context} (h : c.symbols = d.symbols)

include h

theorem Context.readVariable_congr (name : String) (span : Span) :
    c.readVariable name span = d.readVariable name span := by
  simp only [readVariable, getVariable, h]

theorem Resolved.operand_congr (value : Resolved) : value.operand c = value.operand d := by
  simp only [operand, Context.readVariable_congr h]

theorem Resolved.encoding_congr (index : Resolved) (span : Span) :
    index.encoding span c = index.encoding span d := by
  simp only [encoding, Context.readVariable_congr h]

theorem Container.validate_congr (container : Container) (span : Span) :
    container.validate span c = container.validate span d := by
  simp only [validate, Context.getVariable, h]

end SymbolsOnly

variable {ρ ρ' : Type} {related : CompileState ρ → CompileState ρ' → Prop}
variable {resolver : Resolver ρ} {resolver' : Resolver ρ'}

mutual

theorem Expr.compile_agree (h : Mirrored related) (expr : Expr) :
    Agree related Eq (expr.compile : CompileM ρ Resolved)
      (expr.compile : CompileM ρ' Resolved) := by
  cases expr with
  | literal value span =>
      rw [Expr.compile, Expr.compile]
      exact (h.record _ _).bind fun _ _ _ => .pure rfl
  | var name span =>
      rw [Expr.compile, Expr.compile]
      apply (h.reading fun c d hcd => Context.readVariable_congr hcd name span).bind
      rintro v _ rfl
      exact (h.record _ _).bind fun _ _ _ => .pure rfl
  | array items span =>
      rw [Expr.compile, Expr.compile]
      apply (h.agree_initTemporary span).bind
      rintro holder _ rfl
      apply (h.agree_write rfl).bind
      intro _ _ _
      apply (Expr.compileItems_agree h holder items).bind
      intro _ _ _
      exact (h.record _ _).bind fun _ _ _ => .pure rfl

theorem Expr.compileItems_agree (h : Mirrored related) (holder : String) (items : List Expr) :
    Agree related Eq (Expr.compileItems holder items : CompileM ρ Unit)
      (Expr.compileItems holder items : CompileM ρ' Unit) := by
  cases items with
  | nil =>
      rw [Expr.compileItems, Expr.compileItems]
      exact .pure rfl
  | cons item rest =>
      rw [Expr.compileItems, Expr.compileItems]
      apply (Expr.compile_agree h item).bind
      rintro value _ rfl
      apply (h.reading fun c d hcd => Resolved.operand_congr hcd value).bind
      rintro operand _ rfl
      apply (h.agree_write rfl).bind
      intro _ _ _
      exact Expr.compileItems_agree h holder rest

end

theorem resolveIndexes_agree (hresolver : ∀ expr, Agree related Eq (resolver expr) (resolver' expr))
    (span : Span) (indexes : List Expr) :
    Agree related Eq (resolveIndexes resolver span indexes)
      (resolveIndexes resolver' span indexes) := by
  induction indexes with
  | nil => exact .pure rfl
  | cons index rest ih =>
      apply ((hresolver index).withSpan span).bind
      rintro value _ rfl
      split
      · apply ih.bind
        rintro values _ rfl
        exact .pure rfl
      · exact .reject _ _

theorem classifyIndexes_agree (h : Mirrored related) (span : Span) (chain : KeyChain)
    (indexes : List Resolved) :
    Agree related Eq (classifyIndexes span chain indexes : CompileM ρ KeyChain)
      (classifyIndexes span chain indexes : CompileM ρ' KeyChain) := by
  induction indexes generalizing chain with
  | nil => exact .pure rfl
  | cons index rest ih =>
      have hclassify : Agree related Eq (classifyIndex span index : CompileM ρ Encoding)
          (classifyIndex span index : CompileM ρ' Encoding) := by
        apply (h.reading fun c d hcd => Resolved.encoding_congr hcd index span).bind
        rintro encoding _ rfl
        exact (h.record _ _).bind fun _ _ _ => .pure rfl
      apply hclassify.bind
      rintro encoding _ rfl
      exact ih _

theorem holdValue_agree (h : Mirrored related)
    (hresolver : ∀ expr, Agree related Eq (resolver expr) (resolver' expr)) (value : Expr) :
    Agree related Eq (holdValue resolver value) (holdValue resolver' value) := by
  apply (hresolver value).bind
  rintro resolved _ rfl
  apply (h.reading fun c d hcd => Resolved.operand_congr hcd resolved).bind
  rintro operand _ rfl
  cases operand with
  | held name => exact .pure rfl
  | immediate immediate =>
      apply (h.agree_initTemporary _).bind
      rintro holder _ rfl
      split
      · exact (h.agree_write rfl).bind fun _ _ _ => .pure rfl
      · apply (h.record _ _).bind
        intro _ _ _
        exact (h.agree_write rfl).bind fun _ _ _ => .pure rfl

section Statements

variable {faults faults' : Fault → Prop} (h : Respected related)
variable (hresolver : ∀ expr, Agree related Eq (resolver expr) (resolver' expr))

include h hresolver

theorem lowerAppend_agree (target : Target) (value : Expr) (span : Span) :
    Agree related (fun call call' => call.inMode false = call'.inMode false)
      (lowerAppend resolver target value span) (lowerAppend resolver' target value span) := by
  apply (h.reading fun c d hcd => target.container.validate_congr hcd span).bind
  intro _ _ _
  apply (h.record _ _).bind
  intro _ _ _
  apply (resolveIndexes_agree hresolver span target.indexes).bind
  rintro indexes _ rfl
  apply (h.record _ _).bind
  intro _ _ _
  apply (classifyIndexes_agree h.toMirrored span .empty indexes).bind
  rintro chain _ rfl
  apply (h.record _ _).bind
  intro _ _ _
  apply ((holdValue_agree h.toMirrored hresolver value).withSpan span).bind
  rintro holder _ rfl
  apply (h.record _ _).bind
  intro _ _ _
  -- the calls may differ in `zts`, which each side takes from its own configuration
  have hcall : Agree related (fun call call' => call.inMode false = call'.inMode false)
      (CompileM.updating fun c : Context =>
        let call := { container := target.container, holder, chain, zts := c.config.codegen.zts }
        (call, c.writeCall call) : CompileM ρ RuntimeCall)
      (CompileM.updating fun c : Context =>
        let call := { container := target.container, holder, chain, zts := c.config.codegen.zts }
        (call, c.writeCall call) : CompileM ρ' RuntimeCall) :=
    fun s t hst => .ok rfl
      (h.call { container := target.container, holder, chain, zts := false } hst)
  apply hcall.bind
  intro call call' hsame
  exact (h.record _ _).bind fun _ _ _ => .pure hsame

variable (hadds : ∀ expr, OnlyAdds faults (resolver expr))
variable (hadds' : ∀ expr, OnlyAdds faults' (resolver' expr))

include hadds hadds'

theorem compileAppend_agree (target : Target) (value : Expr) (span : Span) :
    Agree related (fun call call' => call.inMode false = call'.inMode false)
      (compileAppend resolver target value span) (compileAppend resolver' target value span) :=
  h.transaction ((lowerAppend_onlyAdds hadds target value span).onRejection _)
    ((lowerAppend_onlyAdds hadds' target value span).onRejection _)
    (h.onRejection (lowerAppend_agree h hresolver target value span) _ _)

theorem compileAssignments_agree (assignments : List Assignment) :
    Agree related SameCalls (compileAssignments resolver assignments)
      (compileAssignments resolver' assignments) := by
  induction assignments with
  | nil => exact .pure rfl
  | cons assignment rest ih =>
      apply (compileAppend_agree h hresolver hadds hadds' _ _ _).bind
      intro call call' hcall
      exact ih.bind fun calls calls' hcalls => .pure (congrArg₂ List.cons hcall hcalls)

theorem compileStatement_agree (statement : Statement) :
    Agree related SameCalls (compileStatement resolver statement)
      (compileStatement resolver' statement) :=
  h.transaction (compileAssignments_onlyAdds hadds statement.assignments)
    (compileAssignments_onlyAdds hadds' statement.assignments)
    (compileAssignments_agree h hresolver hadds hadds' statement.assignments)

theorem compileEach_agree (statements : List Statement) :
    Agree related Eq (compileEach resolver statements) (compileEach resolver' statements) := by
  induction statements with
  | nil => exact .pure rfl
  | cons statement rest ih =>
      apply (compileStatement_agree h hresolver hadds hadds' statement).attempt.bind
      rintro _ _ (_ | d)
      · exact (h.record _ _).bind fun _ _ _ => ih
      · apply ih.bind
        rintro diagnostics _ rfl
        exact .pure rfl

theorem compileStatementsWith_agree (statements : List Statement) :
    Agree related Eq (compileStatementsWith resolver statements)
      (compileStatementsWith resolver' statements) := by
  apply (h.record _ _).bind
  intro _ _ _
  apply (compileEach_agree h hresolver hadds hadds' statements).bind
  rintro diagnostics _ rfl
  split
  · exact .pure rfl
  · exact (h.record _ _).bind fun _ _ _ => .pure rfl

end Statements

end AppendLowering
