import AppendLowering.Compile.Statement
import AppendLowering.Proofs.Compile.Growth
import AppendLowering.Proofs.Compile.Lookup

/-!
# Actions that only add

Every stage of the lowering, run with a resolver that only adds to the context,
only adds to it, whether the stage succeeds or fails. A fault of a stage is a
fault of the resolver: in a reachable context the stages raise none themselves.
-/

namespace AppendLowering

namespace CompileM

variable {ρ α β : Type} {faults : Fault → Prop}

/-- The context in which an action leaves the compiler, however it ends. -/
def contextAfter (action : CompileM ρ α) (s : CompileState ρ) : Context :=
  match action s with
  | .ok _ t => t.context
  | .error _ t => t.context

/-- What an action gives, if it succeeds. -/
def value? (action : CompileM ρ α) (s : CompileState ρ) : Option α :=
  match action s with
  | .ok a _ => some a
  | .error _ _ => none

/-- What an action is rejected for, if it is. -/
def rejection? (action : CompileM ρ α) (s : CompileState ρ) : Option Diagnostic :=
  match action s with
  | .error (.rejected d) _ => some d
  | _ => none

theorem contextAfter_withSpan (span : Span) (action : CompileM ρ α) (s : CompileState ρ) :
    contextAfter (withSpan span action) s = contextAfter action s := by
  unfold contextAfter withSpan
  rcases action s with ⟨a, t⟩ | ⟨d | f, t⟩ <;> rfl

theorem contextAfter_onRejection (entry : Diagnostic → LogEntry) (action : CompileM ρ α)
    (s : CompileState ρ) : contextAfter (onRejection entry action) s = contextAfter action s := by
  unfold contextAfter onRejection
  rcases action s with ⟨a, t⟩ | ⟨d | f, t⟩ <;> rfl

theorem fault_of_withSpan {span : Span} {action : CompileM ρ α} {s t : CompileState ρ} {f : Fault}
    (hrun : withSpan span action s = .error (.fault f) t) : action s = .error (.fault f) t := by
  unfold withSpan at hrun
  rcases haction : action s with ⟨a, u⟩ | ⟨d | g, u⟩ <;> rw [haction] at hrun <;> cases hrun
  rfl

/-- Logging a rejection raises no fault. -/
theorem fault_of_onRejection {entry : Diagnostic → LogEntry} {action : CompileM ρ α}
    {s t : CompileState ρ} {f : Fault}
    (hrun : onRejection entry action s = .error (.fault f) t) : action s = .error (.fault f) t := by
  unfold onRejection at hrun
  rcases haction : action s with ⟨a, u⟩ | ⟨d | g, u⟩ <;> rw [haction] at hrun <;> cases hrun
  rfl

/-- The action lets a reachable context grow and raises only the given faults. -/
structure OnlyAdds (faults : Fault → Prop) (action : CompileM ρ α) : Prop where
  grows (s : CompileState ρ) : s.context.Reachable → s.context.Grows (contextAfter action s)
  fault (s : CompileState ρ) (f : Fault) (t : CompileState ρ) : s.context.Reachable →
    action s = .error (.fault f) t → faults f

namespace OnlyAdds

variable {action : CompileM ρ α}

theorem grows_ok (h : OnlyAdds faults action) {s t : CompileState ρ} {a : α}
    (hs : s.context.Reachable) (hrun : action s = .ok a t) : s.context.Grows t.context := by
  simpa only [contextAfter, hrun] using h.grows s hs

theorem grows_error (h : OnlyAdds faults action) {s t : CompileState ρ} {failure : Failure}
    (hs : s.context.Reachable) (hrun : action s = .error failure t) :
    s.context.Grows t.context := by
  simpa only [contextAfter, hrun] using h.grows s hs

theorem pure (a : α) : OnlyAdds faults (pure a : CompileM ρ α) where
  grows _ _ := .refl
  fault _ _ _ _ h := by cases h

theorem bind {next : α → CompileM ρ β} (hfirst : OnlyAdds faults action)
    (hnext : ∀ a, OnlyAdds faults (next a)) : OnlyAdds faults (action >>= next) where
  grows s hs := by
    cases hrun : action s with
    | ok a t =>
        have hst := hfirst.grows_ok hs hrun
        have hrest := (hnext a).grows t (hst.reachable hs)
        have heq : contextAfter (action >>= next) s = contextAfter (next a) t := by
          simp only [contextAfter, Bind.bind, EStateM.bind, hrun]
        exact heq ▸ hst.trans hrest
    | error failure t =>
        have heq : contextAfter (action >>= next) s = t.context := by
          simp only [contextAfter, Bind.bind, EStateM.bind, hrun]
        exact heq ▸ hfirst.grows_error hs hrun
  fault s f u hs h := by
    simp only [Bind.bind, EStateM.bind] at h
    cases hrun : action s with
    | ok a t =>
        rw [hrun] at h
        exact (hnext a).fault t f u ((hfirst.grows_ok hs hrun).reachable hs) h
    | error failure t =>
        rw [hrun] at h
        cases h
        exact hfirst.fault s f u hs hrun

/-- A query leaves the context alone. -/
theorem reading {query : Context → Except Failure α} (h : Faultless query) :
    OnlyAdds faults (CompileM.reading query : CompileM ρ α) where
  grows s _ := by
    cases hq : query s.context <;> simp only [contextAfter, CompileM.reading, hq] <;> exact .refl
  fault s f t hs hrun := by
    cases hq : query s.context with
    | ok a => simp [CompileM.reading, hq] at hrun
    | error failure =>
        simp only [CompileM.reading, hq] at hrun
        cases hrun
        exact absurd hq (h _ f hs.wellFormed)

theorem updating {change : Context → α × Context} (h : ∀ c : Context, c.Grows (change c).2) :
    OnlyAdds faults (CompileM.updating change : CompileM ρ α) where
  grows s _ := h s.context
  fault _ _ _ _ hrun := by cases hrun

theorem record (entry : LogEntry) : OnlyAdds faults (CompileM.record entry : CompileM ρ Unit) where
  grows _ _ := .refl
  fault _ _ _ _ hrun := by cases hrun

theorem write (line : Line) : OnlyAdds faults (CompileM.write line : CompileM ρ Unit) :=
  updating fun c => .write c line

theorem initTemporary (span : Span) :
    OnlyAdds faults (CompileM.initTemporary span : CompileM ρ String) :=
  updating fun c => .initTemporary c span

theorem reject (cause : Diagnostic.Cause) (span : Span) :
    OnlyAdds faults (CompileM.reject cause span : CompileM ρ α) where
  grows _ _ := .refl
  fault _ _ _ _ hrun := by cases hrun

/-- Another action with the same contexts, and with no fault that the first has not, does. -/
theorem congr {other : CompileM ρ β} (h : OnlyAdds faults action)
    (hcontext : ∀ s, contextAfter other s = contextAfter action s)
    (hfault : ∀ s f t, other s = .error (.fault f) t → action s = .error (.fault f) t) :
    OnlyAdds faults other where
  grows s hs := hcontext s ▸ h.grows s hs
  fault s f t hs hrun := h.fault s f t hs (hfault s f t hrun)

theorem withSpan (h : OnlyAdds faults action) (span : Span) :
    OnlyAdds faults (CompileM.withSpan span action) :=
  h.congr (contextAfter_withSpan span action) fun _ _ _ => fault_of_withSpan

theorem onRejection (h : OnlyAdds faults action) (entry : Diagnostic → LogEntry) :
    OnlyAdds faults (CompileM.onRejection entry action) :=
  h.congr (contextAfter_onRejection entry action) fun _ _ _ => fault_of_onRejection

end OnlyAdds

end CompileM

open CompileM

variable {ρ : Type} {faults : Fault → Prop} {resolver : Resolver ρ}

theorem Expr.traceResolved_onlyAdds (expr : Expr) (value : Resolved) :
    OnlyAdds faults (expr.traceResolved value : CompileM ρ Unit) :=
  .record _

mutual

theorem Expr.compile_onlyAdds (expr : Expr) :
    OnlyAdds faults (expr.compile : CompileM ρ Resolved) := by
  cases expr with
  | literal value span =>
      rw [Expr.compile]
      exact (Expr.traceResolved_onlyAdds _ _).bind fun _ => .pure _
  | var name span =>
      rw [Expr.compile]
      apply OnlyAdds.bind (.reading (.readVariable name span))
      intro v
      exact (Expr.traceResolved_onlyAdds _ _).bind fun _ => .pure _
  | array items span =>
      rw [Expr.compile]
      apply OnlyAdds.bind (.initTemporary span)
      intro holder
      apply OnlyAdds.bind (.write _)
      intro _
      apply OnlyAdds.bind (Expr.compileItems_onlyAdds holder items)
      intro _
      exact (Expr.traceResolved_onlyAdds _ _).bind fun _ => .pure _

theorem Expr.compileItems_onlyAdds (holder : String) (items : List Expr) :
    OnlyAdds faults (Expr.compileItems holder items : CompileM ρ Unit) := by
  cases items with
  | nil =>
      rw [Expr.compileItems]
      exact .pure ()
  | cons item rest =>
      rw [Expr.compileItems]
      apply OnlyAdds.bind (Expr.compile_onlyAdds item)
      intro value
      apply OnlyAdds.bind (.reading (.operand value))
      intro operand
      apply OnlyAdds.bind (.write _)
      intro _
      exact Expr.compileItems_onlyAdds holder rest

end

theorem resolveIndexes_onlyAdds (hresolver : ∀ expr, OnlyAdds faults (resolver expr)) (span : Span)
    (indexes : List Expr) : OnlyAdds faults (resolveIndexes resolver span indexes) := by
  induction indexes with
  | nil => exact .pure []
  | cons index rest ih =>
      apply OnlyAdds.bind ((hresolver index).withSpan span)
      intro value
      split
      · exact ih.bind fun values => .pure _
      · exact .reject _ _

theorem classifyIndex_onlyAdds (span : Span) (index : Resolved) :
    OnlyAdds faults (classifyIndex span index : CompileM ρ Encoding) := by
  apply OnlyAdds.bind (.reading (.encoding index span))
  intro encoding
  exact .bind (.record _) fun _ => .pure encoding

theorem classifyIndexes_onlyAdds (span : Span) (chain : KeyChain) (indexes : List Resolved) :
    OnlyAdds faults (classifyIndexes span chain indexes : CompileM ρ KeyChain) := by
  induction indexes generalizing chain with
  | nil => exact .pure chain
  | cons index rest ih =>
      apply OnlyAdds.bind (classifyIndex_onlyAdds span index)
      intro encoding
      exact ih _

theorem holdValue_onlyAdds (hresolver : ∀ expr, OnlyAdds faults (resolver expr)) (value : Expr) :
    OnlyAdds faults (holdValue resolver value) := by
  apply OnlyAdds.bind (hresolver value)
  intro resolved
  apply OnlyAdds.bind (.reading (.operand resolved))
  intro operand
  cases operand with
  | held name => exact .pure name
  | immediate immediate =>
      apply OnlyAdds.bind (.initTemporary _)
      intro holder
      split
      · exact .bind (.write _) fun _ => .pure holder
      · exact .bind (.record _) fun _ => .bind (.write _) fun _ => .pure holder

theorem traceStage_onlyAdds (container : Container) (stage : Stage) :
    OnlyAdds faults (traceStage container stage : CompileM ρ Unit) :=
  .record _

theorem lowerAppend_onlyAdds (hresolver : ∀ expr, OnlyAdds faults (resolver expr))
    (target : Target) (value : Expr) (span : Span) :
    OnlyAdds faults (lowerAppend resolver target value span) := by
  apply OnlyAdds.bind (.reading (.validate target.container span))
  intro _
  apply OnlyAdds.bind (traceStage_onlyAdds _ _)
  intro _
  apply OnlyAdds.bind (resolveIndexes_onlyAdds hresolver span target.indexes)
  intro indexes
  apply OnlyAdds.bind (traceStage_onlyAdds _ _)
  intro _
  apply OnlyAdds.bind (classifyIndexes_onlyAdds span .empty indexes)
  intro chain
  apply OnlyAdds.bind (traceStage_onlyAdds _ _)
  intro _
  apply OnlyAdds.bind ((holdValue_onlyAdds hresolver value).withSpan span)
  intro holder
  apply OnlyAdds.bind (traceStage_onlyAdds _ _)
  intro _
  apply OnlyAdds.bind (.updating fun c => .writeCall c _)
  intro call
  exact (traceStage_onlyAdds _ _).bind fun _ => .pure call

end AppendLowering
