import AppendLowering.Compile.Statement
import AppendLowering.Proofs.Append.Answers

/-!
# What a resolver is asked

Compiling an expression has effects, so it matters which expressions a
resolver is asked for, how often and in which order. A resolver that notes its
questions down shows it: for an append these are its indexes as far as they can
be resolved, and then its value, provided that every index can be encoded. A
statement asks for its assignments in order, up to the first that fails, and a
list of statements for all of them, whatever became of those before.
-/

namespace AppendLowering

open CompileM

variable {ρ α β : Type}

namespace CompileState

/-- The state of a resolver that has noted questions down. -/
def attach (s : CompileState ρ) (asked : List Expr) : CompileState (ρ × List Expr) :=
  { context := s.context, log := s.log, own := (s.own, asked) }

/-- The state without the questions. -/
def detach (s : CompileState (ρ × List Expr)) : CompileState ρ :=
  { context := s.context, log := s.log, own := s.own.1 }

end CompileState

/-- A result with the questions noted down by then. -/
def CompileM.attachResult (asked : List Expr) :
    EStateM.Result Failure (CompileState ρ) α →
      EStateM.Result Failure (CompileState (ρ × List Expr)) α
  | .ok a t => .ok a (t.attach asked)
  | .error failure t => .error failure (t.attach asked)

/-- The resolver, with a note of every expression that it is asked for. -/
def Resolver.noting (resolver : Resolver ρ) : Resolver (ρ × List Expr) := fun expr s =>
  attachResult (s.own.2 ++ [expr]) (resolver expr s.detach)

namespace CompileM

/-- From `s`, the action with notes does what the plain action does, and notes the questions. -/
def Notes (plain : CompileM ρ α) (noting : CompileM (ρ × List Expr) α) (s : CompileState ρ)
    (asked : List Expr) : Prop :=
  ∀ before, noting (s.attach before) = attachResult (before ++ asked) (plain s)

/-- An action that asks nothing. -/
def Silent (plain : CompileM ρ α) (noting : CompileM (ρ × List Expr) α) : Prop :=
  ∀ s, Notes plain noting s []

namespace Notes

variable {plain : CompileM ρ α} {noting : CompileM (ρ × List Expr) α} {s t : CompileState ρ}
variable {next : α → CompileM ρ β} {next' : α → CompileM (ρ × List Expr) β}
variable {asked more : List Expr}

/-- What is asked after a step that succeeds comes after what the step asks. -/
theorem bind_ok {a : α} (h : Notes plain noting s asked) (hrun : plain s = .ok a t)
    (hnext : Notes (next a) (next' a) t more) :
    Notes (plain >>= next) (noting >>= next') s (asked ++ more) := by
  intro before
  have hfirst := h before
  rw [hrun] at hfirst
  have hrest := hnext (before ++ asked)
  simp only [bind, EStateM.bind, hfirst, hrun, attachResult, hrest, List.append_assoc]

theorem bind_ok_nil {a : α} (h : Notes plain noting s asked) (hrun : plain s = .ok a t)
    (hnext : Notes (next a) (next' a) t []) :
    Notes (plain >>= next) (noting >>= next') s asked := by
  simpa only [List.append_nil] using h.bind_ok hrun hnext

/-- Nothing is asked after a step that fails. -/
theorem bind_error {failure : Failure} (h : Notes plain noting s asked)
    (hrun : plain s = .error failure t) : Notes (plain >>= next) (noting >>= next') s asked := by
  intro before
  have hfirst := h before
  rw [hrun] at hfirst
  simp only [bind, EStateM.bind, hfirst, hrun, attachResult]

/-- What follows asks nothing. -/
theorem bind_silent (h : Notes plain noting s asked) (hnext : ∀ a, Silent (next a) (next' a)) :
    Notes (plain >>= next) (noting >>= next') s asked := by
  cases hrun : plain s with
  | ok a t => exact h.bind_ok_nil hrun (hnext a t)
  | error failure t => exact h.bind_error hrun

theorem after_silent {a : α} (h : Silent plain noting) (hrun : plain s = .ok a t)
    (hnext : Notes (next a) (next' a) t asked) :
    Notes (plain >>= next) (noting >>= next') s asked :=
  (h s).bind_ok hrun hnext

theorem withSpan (h : Notes plain noting s asked) (span : Span) :
    Notes (withSpan span plain) (CompileM.withSpan span noting) s asked := by
  intro before
  unfold CompileM.withSpan
  rw [h before]
  rcases plain s with ⟨a, t⟩ | ⟨d | f, t⟩ <;> rfl

theorem onRejection (h : Notes plain noting s asked) (entry : Diagnostic → LogEntry) :
    Notes (onRejection entry plain) (CompileM.onRejection entry noting) s asked := by
  intro before
  unfold CompileM.onRejection
  rw [h before]
  rcases plain s with ⟨a, t⟩ | ⟨d | f, t⟩ <;> rfl

/-- Undoing what was done to the context keeps the notes. -/
theorem transaction (h : Notes plain noting s asked) :
    Notes (transaction plain) (CompileM.transaction noting) s asked := by
  intro before
  unfold CompileM.transaction
  rw [h before]
  rcases plain s with ⟨a, t⟩ | ⟨d | f, t⟩
  · rfl
  · simp only [attachResult, CompileState.attach]
    split <;> rfl
  · rfl

theorem attempt (h : Notes plain noting s asked) :
    Notes (attempt plain) (CompileM.attempt noting) s asked := by
  intro before
  unfold CompileM.attempt
  rw [h before]
  rcases plain s with ⟨a, t⟩ | ⟨d | f, t⟩ <;> rfl

end Notes

namespace Silent

theorem pure (a : α) : Silent (pure a : CompileM ρ α) (pure a) := by
  intro s before
  rw [List.append_nil]
  rfl

theorem bind {plain : CompileM ρ α} {noting : CompileM (ρ × List Expr) α}
    {next : α → CompileM ρ β} {next' : α → CompileM (ρ × List Expr) β}
    (h : Silent plain noting) (hnext : ∀ a, Silent (next a) (next' a)) :
    Silent (plain >>= next) (noting >>= next') :=
  fun s => (h s).bind_silent hnext

theorem reading (query : Context → Except Failure α) :
    Silent (reading query : CompileM ρ α) (CompileM.reading query) := by
  intro s before
  unfold CompileM.reading
  simp only [CompileState.attach, List.append_nil]
  split <;> rfl

theorem updating (change : Context → α × Context) :
    Silent (updating change : CompileM ρ α) (CompileM.updating change) := by
  intro s before
  rw [List.append_nil]
  rfl

theorem record (entry : LogEntry) :
    Silent (record entry : CompileM ρ Unit) (CompileM.record entry) := by
  intro s before
  rw [List.append_nil]
  rfl

theorem reject (cause : Diagnostic.Cause) (span : Span) :
    Silent (reject cause span : CompileM ρ α) (CompileM.reject cause span) := by
  intro s before
  rw [List.append_nil]
  rfl

end Silent

end CompileM

theorem Resolver.noting_notes (resolver : Resolver ρ) (expr : Expr) (s : CompileState ρ) :
    Notes (resolver expr) (resolver.noting expr) s [expr] :=
  fun _ => rfl

section Stages

variable {resolver : Resolver ρ} {s t : CompileState ρ} {span : Span}

/-- Indexes that are resolved are asked for once each, before whatever comes after them. -/
theorem Resolver.Answers.notes {before rest : List Expr} {values : List Resolved}
    {asked : List Expr} (h : resolver.Answers s before values t)
    (hrest : Notes (resolveIndexes resolver span rest) (resolveIndexes resolver.noting span rest)
      t asked) :
    Notes (resolveIndexes resolver span (before ++ rest))
      (resolveIndexes resolver.noting span (before ++ rest)) s (before ++ asked) := by
  induction h with
  | nil s => exact hrest
  | @cons s t u index value before values hanswer hindex _ ih =>
      have hplain : CompileM.withSpan span (resolver index) s = .ok value t := by
        simp only [CompileM.withSpan, hanswer]
      refine ((resolver.noting_notes index s).withSpan span).bind_ok hplain ?_
      rw [if_pos hindex, if_pos hindex]
      exact (ih hrest).bind_silent fun values => .pure _

/-- The resolver does not compile the index to something that can be an index. -/
def Resolver.StopsAt (resolver : Resolver ρ) (index : Expr) (t : CompileState ρ) : Prop :=
  ∀ value u, resolver index t = .ok value u → value.type.isIndex = false

theorem Resolver.Answers.notes_all {indexes : List Expr} {values : List Resolved}
    (h : resolver.Answers s indexes values t) :
    Notes (resolveIndexes resolver span indexes) (resolveIndexes resolver.noting span indexes)
      s indexes := by
  have hnone : Notes (resolveIndexes resolver span []) (resolveIndexes resolver.noting span [])
      t [] := Silent.pure [] t
  simpa only [List.append_nil] using h.notes hnone

theorem Resolver.StopsAt.notes {index : Expr} (h : resolver.StopsAt index t) (after : List Expr) :
    Notes (resolveIndexes resolver span (index :: after))
      (resolveIndexes resolver.noting span (index :: after)) t [index] := by
  have hasked := (resolver.noting_notes index t).withSpan span
  cases hrun : CompileM.withSpan span (resolver index) t with
  | error failure u => exact hasked.bind_error hrun
  | ok value u =>
      have hother : ¬ value.type.isIndex = true := by
        simp [h value u (withSpan_ok hrun)]
      refine hasked.bind_ok_nil hrun ?_
      rw [if_neg hother, if_neg hother]
      exact Silent.reject _ _ u

/-- Resolving fails where an index fails. -/
theorem Resolver.Answers.resolveIndexes_error {before after : List Expr} {index : Expr}
    {values : List Resolved} (h : resolver.Answers s before values t)
    (hstop : resolver.StopsAt index t) :
    ∃ failure u, resolveIndexes resolver span (before ++ index :: after) s = .error failure u := by
  rcases hrun : resolveIndexes resolver span (before ++ index :: after) s with
    ⟨all, u⟩ | ⟨failure, u⟩
  · exfalso
    replace hrun := resolveIndexes_ok_iff.mp hrun
    induction h generalizing all with
    | nil s =>
        cases hrun with
        | cons hanswer hindex _ => simp [hstop _ _ hanswer] at hindex
    | cons hanswer _ _ ih =>
        cases hrun with
        | cons hanswer' _ hrest =>
            rw [hanswer] at hanswer'
            cases hanswer'
            exact ih hstop _ hrest
  · exact ⟨failure, u, rfl⟩

/-- The resolver answers all indexes, or there is a first one that it does not. -/
theorem Resolver.answers_or_stops (resolver : Resolver ρ) (s : CompileState ρ)
    (indexes : List Expr) :
    (∃ values t, resolver.Answers s indexes values t) ∨
      ∃ before index after values t, indexes = before ++ index :: after ∧
        resolver.Answers s before values t ∧ resolver.StopsAt index t := by
  induction indexes generalizing s with
  | nil => exact .inl ⟨[], s, .nil s⟩
  | cons index rest ih =>
      by_cases hanswer : ∃ value t, resolver index s = .ok value t ∧ value.type.isIndex = true
      · obtain ⟨value, t, hanswer, hindex⟩ := hanswer
        rcases ih t with ⟨values, u, hrest⟩ | ⟨before, stop, after, values, u, rfl, hbefore, hstop⟩
        · exact .inl ⟨value :: values, u, .cons hanswer hindex hrest⟩
        · exact .inr ⟨index :: before, stop, after, value :: values, u, rfl,
            .cons hanswer hindex hbefore, hstop⟩
      · refine .inr ⟨[], index, rest, [], s, rfl, .nil s, fun value u hrun => ?_⟩
        exact Bool.eq_false_iff.mpr fun hindex => hanswer ⟨value, u, hrun, hindex⟩

theorem classifyIndexes_silent (span : Span) (chain : KeyChain) (values : List Resolved) :
    Silent (classifyIndexes span chain values : CompileM ρ KeyChain)
      (classifyIndexes span chain values) := by
  induction values generalizing chain with
  | nil => exact .pure chain
  | cons value rest ih =>
      refine .bind (.bind (.reading _) fun encoding => ?_) fun encoding => ih _
      exact .bind (.record _) fun _ => .pure encoding

theorem classifyIndex_of_encoding {value : Resolved} {encoding : Encoding}
    (h : value.encoding span s.context = .ok encoding) :
    classifyIndex span value s = .ok encoding (s.logged (.trace .classifier
      (value.type.display ++ " `" ++ value.code ++ "` -> " ++ encoding.name))) := by
  simp only [classifyIndex, bind, EStateM.bind, CompileM.reading, h]
  rfl

/-- Encoding succeeds exactly if every index has an encoding. -/
theorem classifyIndexes_ok_iff {values : List Resolved} (chain : KeyChain) :
    (∃ result t, classifyIndexes span chain values s = .ok result t) ↔
      ∀ value ∈ values, ∃ encoding, value.encoding span s.context = .ok encoding := by
  constructor
  · rintro ⟨result, t, h⟩
    obtain ⟨-, encoded, hencoded, -⟩ := classifyIndexes_ok h
    clear h
    induction hencoded with
    | nil => simp
    | cons hindex _ ih => exact List.forall_mem_cons.mpr ⟨⟨_, hindex.1⟩, ih⟩
  · intro h
    induction values generalizing chain s with
    | nil => exact ⟨chain, s, rfl⟩
    | cons value rest ih =>
        rw [List.forall_mem_cons] at h
        obtain ⟨⟨encoding, hencoding⟩, hrest⟩ := h
        obtain ⟨result, t, hresult⟩ := ih (s := s.logged (.trace .classifier
          (value.type.display ++ " `" ++ value.code ++ "` -> " ++ encoding.name)))
          (chain.push encoding value.code) hrest
        refine ⟨result, t, ?_⟩
        simpa only [classifyIndexes, bind, EStateM.bind, classifyIndex_of_encoding hencoding]
          using hresult

theorem Resolved.hold_silent (value : Resolved) :
    Silent (value.hold : CompileM ρ String) value.hold := by
  refine .bind (.reading _) fun operand => ?_
  cases operand with
  | held name => exact .pure name
  | immediate immediate =>
      refine .bind (.updating _) fun holder => ?_
      split
      · exact .bind (.updating _) fun _ => .pure holder
      · exact .bind (.record _) fun _ => .bind (.updating _) fun _ => .pure holder

theorem holdValue_notes (resolver : Resolver ρ) (value : Expr) (s : CompileState ρ) :
    Notes (holdValue resolver value) (holdValue resolver.noting value) s [value] :=
  (resolver.noting_notes value s).bind_silent Resolved.hold_silent

end Stages

/-- The expressions that an append asks for, from `s` on: none if the container does not pass; the
indexes up to the first that cannot be resolved to an index; all indexes if one of them has no
encoding when all are resolved; and otherwise the value after them. -/
inductive Target.Asks (resolver : Resolver ρ) (target : Target) (value : Expr) (span : Span)
    (s : CompileState ρ) : List Expr → Prop
  | nothing {failure : Failure}
      (hcontainer : target.container.validate span s.context = .error failure) :
      Asks resolver target value span s []
  | someIndexes {before after : List Expr} {index : Expr} {values : List Resolved}
      {t : CompileState ρ} (hcontainer : target.container.validate span s.context = .ok ())
      (hindexes : target.indexes = before ++ index :: after)
      (hbefore : resolver.Answers (s.passed target.container .targetValidated) before values t)
      (hindex : resolver.StopsAt index t) : Asks resolver target value span s (before ++ [index])
  | allIndexes {values : List Resolved} {t : CompileState ρ} {index : Resolved} {failure : Failure}
      (hcontainer : target.container.validate span s.context = .ok ())
      (hanswers : resolver.Answers (s.passed target.container .targetValidated) target.indexes
        values t) (hmem : index ∈ values)
      (hindex : index.encoding span t.context = .error failure) :
      Asks resolver target value span s target.indexes
  | everything {values : List Resolved} {t : CompileState ρ}
      (hcontainer : target.container.validate span s.context = .ok ())
      (hanswers : resolver.Answers (s.passed target.container .targetValidated) target.indexes
        values t)
      (hencoded : ∀ index ∈ values, ∃ encoding, index.encoding span t.context = .ok encoding) :
      Asks resolver target value span s (target.indexes ++ [value])

/-- The expressions that assignments ask for: those of each in turn, up to the first that fails. -/
inductive AssignmentsAsk (resolver : Resolver ρ) :
    CompileState ρ → List Assignment → List Expr → Prop
  | done (s : CompileState ρ) : AssignmentsAsk resolver s [] []
  | next {s t : CompileState ρ} {assignment : Assignment} {rest : List Assignment}
      {call : RuntimeCall} {asked more : List Expr}
      (hrun : compileAssignment resolver assignment s = .ok call t)
      (hasked : assignment.target.Asks resolver assignment.value assignment.span s asked)
      (hrest : AssignmentsAsk resolver t rest more) :
      AssignmentsAsk resolver s (assignment :: rest) (asked ++ more)
  | failed {s t : CompileState ρ} {assignment : Assignment} {rest : List Assignment}
      {failure : Failure} {asked : List Expr}
      (hrun : compileAssignment resolver assignment s = .error failure t)
      (hasked : assignment.target.Asks resolver assignment.value assignment.span s asked) :
      AssignmentsAsk resolver s (assignment :: rest) asked

/-- The expressions that statements ask for: those of each in turn, whether it is accepted or
rejected. Only a fault of the compiler itself ends the list early. -/
inductive StatementsAsk (resolver : Resolver ρ) :
    CompileState ρ → List Statement → List Expr → Prop
  | done (s : CompileState ρ) : StatementsAsk resolver s [] []
  | next {s t : CompileState ρ} {statement : Statement} {rest : List Statement}
      {diagnostics : List Diagnostic} {asked more : List Expr}
      (hrun : compileEach resolver [statement] s = .ok diagnostics t)
      (hasked : AssignmentsAsk resolver s statement.assignments asked)
      (hrest : StatementsAsk resolver t rest more) :
      StatementsAsk resolver s (statement :: rest) (asked ++ more)
  | aborted {s t : CompileState ρ} {statement : Statement} {rest : List Statement} {fault : Fault}
      {asked : List Expr} (hrun : compileEach resolver [statement] s = .error (.fault fault) t)
      (hasked : AssignmentsAsk resolver s statement.assignments asked) :
      StatementsAsk resolver s (statement :: rest) asked

section Appends

variable {resolver : Resolver ρ} {target : Target} {value : Expr} {span : Span}
variable {s : CompileState ρ} {asked : List Expr}

theorem Target.exists_asks (resolver : Resolver ρ) (target : Target) (value : Expr) (span : Span)
    (s : CompileState ρ) : ∃ asked, target.Asks resolver value span s asked := by
  cases hcontainer : target.container.validate span s.context with
  | error failure => exact ⟨_, .nothing hcontainer⟩
  | ok _ =>
      rcases resolver.answers_or_stops (s.passed target.container .targetValidated) target.indexes
        with ⟨values, t, hanswers⟩ | ⟨before, index, after, values, t, hindexes, hbefore, hindex⟩
      · by_cases hencoded : ∀ index ∈ values, ∃ encoding,
            index.encoding span t.context = .ok encoding
        · exact ⟨_, .everything hcontainer hanswers hencoded⟩
        · push Not at hencoded
          obtain ⟨index, hmem, hindex⟩ := hencoded
          cases hrun : index.encoding span t.context with
          | ok encoding => exact absurd hrun (hindex encoding)
          | error failure => exact ⟨_, .allIndexes hcontainer hanswers hmem hrun⟩
      · exact ⟨_, .someIndexes hcontainer hindexes hbefore hindex⟩

theorem Target.Asks.prefix_all (h : target.Asks resolver value span s asked) :
    asked <+: target.indexes ++ [value] := by
  cases h with
  | nothing _ => exact List.nil_prefix
  | @someIndexes before after index _ _ _ hindexes _ _ =>
      rw [hindexes]
      exact ⟨after ++ [value], by simp⟩
  | allIndexes _ _ _ _ => exact List.prefix_append _ _
  | everything _ _ _ => exact List.prefix_refl _

theorem Target.Asks.lowerAppend_notes (h : target.Asks resolver value span s asked) :
    Notes (lowerAppend resolver target value span) (lowerAppend resolver.noting target value span)
      s asked := by
  have hcheck (hcontainer : target.container.validate span s.context = .ok ()) :
      CompileM.reading (target.container.validate span) s = .ok () s := by
    simp only [CompileM.reading, hcontainer]
  cases h with
  | @nothing failure hcontainer =>
      have hrun : CompileM.reading (target.container.validate span) s = .error failure s := by
        simp only [CompileM.reading, hcontainer]
      exact (Silent.reading _ s).bind_error hrun
  | @someIndexes before after index values t hcontainer hindexes hbefore hindex =>
      refine .after_silent (.reading _) (hcheck hcontainer) ?_
      refine .after_silent (.record _) (traceStage_eq _ _ s) ?_
      rw [hindexes]
      obtain ⟨failure, u, hrun⟩ : ∃ failure u,
          resolveIndexes resolver span (before ++ index :: after)
            (s.passed target.container .targetValidated) = .error failure u :=
        hbefore.resolveIndexes_error hindex
      exact (hbefore.notes (hindex.notes after)).bind_error hrun
  | @allIndexes values t index failure hcontainer hanswers hmem hindex =>
      refine .after_silent (.reading _) (hcheck hcontainer) ?_
      refine .after_silent (.record _) (traceStage_eq _ _ s) ?_
      refine hanswers.notes_all.bind_ok_nil (resolveIndexes_ok_iff.mpr hanswers) ?_
      refine .after_silent (.record _) (traceStage_eq _ _ t) ?_
      cases hrun : classifyIndexes span .empty values
          (t.passed target.container .indicesResolved) with
      | ok chain u =>
          obtain ⟨encoding, hencoding⟩ := (classifyIndexes_ok_iff _).mp ⟨_, _, hrun⟩ index hmem
          exact absurd (hindex.symm.trans hencoding) (by simp)
      | error failure u => exact (classifyIndexes_silent _ _ _ _).bind_error hrun
  | @everything values t hcontainer hanswers hencoded =>
      refine .after_silent (.reading _) (hcheck hcontainer) ?_
      refine .after_silent (.record _) (traceStage_eq _ _ s) ?_
      refine hanswers.notes_all.bind_ok (resolveIndexes_ok_iff.mpr hanswers) ?_
      refine .after_silent (.record _) (traceStage_eq _ _ t) ?_
      obtain ⟨chain, u, hchain⟩ := (classifyIndexes_ok_iff
        (s := t.passed target.container .indicesResolved) .empty).mpr hencoded
      refine .after_silent (classifyIndexes_silent _ _ _) hchain ?_
      refine .after_silent (.record _) (traceStage_eq _ _ u) ?_
      refine ((holdValue_notes resolver value _).withSpan span).bind_silent fun holder => ?_
      refine .bind (.record _) fun _ => .bind (.updating _) fun call => ?_
      exact .bind (.record _) fun _ => .pure call

theorem Target.Asks.notes (h : target.Asks resolver value span s asked) :
    Notes (compileAppend resolver target value span)
      (compileAppend resolver.noting target value span) s asked :=
  (h.lowerAppend_notes.onRejection _).transaction

end Appends

section Statements

variable {resolver : Resolver ρ} {s : CompileState ρ} {asked : List Expr}

theorem exists_assignmentsAsk (resolver : Resolver ρ) (assignments : List Assignment)
    (s : CompileState ρ) : ∃ asked, AssignmentsAsk resolver s assignments asked := by
  induction assignments generalizing s with
  | nil => exact ⟨[], .done s⟩
  | cons assignment rest ih =>
      obtain ⟨asked, hasked⟩ :=
        assignment.target.exists_asks resolver assignment.value assignment.span s
      cases hrun : compileAssignment resolver assignment s with
      | ok call t =>
          obtain ⟨more, hrest⟩ := ih t
          exact ⟨asked ++ more, .next hrun hasked hrest⟩
      | error failure t => exact ⟨asked, .failed hrun hasked⟩

theorem AssignmentsAsk.compileAssignments_notes {assignments : List Assignment}
    (h : AssignmentsAsk resolver s assignments asked) :
    Notes (compileAssignments resolver assignments)
      (compileAssignments resolver.noting assignments) s asked := by
  induction h with
  | done s => exact Silent.pure [] s
  | next hrun hasked _ ih =>
      exact hasked.notes.bind_ok hrun (ih.bind_silent fun calls => .pure _)
  | failed hrun hasked => exact hasked.notes.bind_error hrun

theorem AssignmentsAsk.notes {statement : Statement}
    (h : AssignmentsAsk resolver s statement.assignments asked) :
    Notes (compileStatement resolver statement) (compileStatement resolver.noting statement) s
      asked :=
  h.compileAssignments_notes.transaction

theorem AssignmentsAsk.compileEach_notes {statement : Statement}
    (h : AssignmentsAsk resolver s statement.assignments asked) :
    Notes (compileEach resolver [statement]) (compileEach resolver.noting [statement]) s asked := by
  refine h.notes.attempt.bind_silent fun result => ?_
  cases result with
  | ok calls => exact .bind (.record _) fun _ => .pure []
  | error diagnostic => exact .bind (.pure []) fun _ => .pure _

/-- A list of statements is compiled one statement after the other. -/
theorem compileEach_cons (resolver : Resolver ρ) (statement : Statement) (rest : List Statement) :
    compileEach resolver (statement :: rest) = do
      let first ← compileEach resolver [statement]
      let others ← compileEach resolver rest
      return first ++ others := by
  funext s
  rcases hrun : compileStatement resolver statement s with ⟨calls, t⟩ | ⟨d | f, t⟩ <;>
    simp only [compileEach, bind, EStateM.bind, attempt, hrun, CompileM.record, pure, EStateM.pure]
  · split <;> simp_all
  · split <;> simp_all

/-- A statement that is compiled in a list of its own: what it leaves, and what is reported. -/
theorem compileEach_singleton_cases (resolver : Resolver ρ) (statement : Statement)
    (s : CompileState ρ) :
    (∃ calls t message, compileStatement resolver statement s = .ok calls t ∧
      compileEach resolver [statement] s = .ok [] (t.logged (.debug message))) ∨
    (∃ d t, compileStatement resolver statement s = .error (.rejected d) t ∧
      compileEach resolver [statement] s = .ok [d] t) ∨
    ∃ fault t, compileStatement resolver statement s = .error (.fault fault) t ∧
      compileEach resolver [statement] s = .error (.fault fault) t := by
  rcases hrun : compileStatement resolver statement s with ⟨calls, t⟩ | ⟨d | f, t⟩
  · refine .inl ⟨calls, t, "let at " ++ statement.span.display ++ ": " ++
      Nat.repr calls.length ++ " calls", rfl, ?_⟩
    simp only [compileEach, bind, EStateM.bind, attempt, hrun]
    rfl
  · refine .inr (.inl ⟨d, t, rfl, ?_⟩)
    simp only [compileEach, bind, EStateM.bind, attempt, hrun]
    rfl
  · refine .inr (.inr ⟨f, t, rfl, ?_⟩)
    simp only [compileEach, bind, EStateM.bind, attempt, hrun]

/-- Compiling a statement ends in a diagnostic or in a fault, never in a rejection of the list. -/
theorem fault_of_compileEach {statement : Statement} {failure : Failure} {t : CompileState ρ}
    (h : compileEach resolver [statement] s = .error failure t) :
    ∃ fault, failure = .fault fault := by
  rcases compileEach_singleton_cases resolver statement s with
    ⟨_, _, _, -, heach⟩ | ⟨_, _, -, heach⟩ | ⟨fault, _, -, heach⟩ <;> rw [heach] at h <;> cases h
  exact ⟨fault, rfl⟩

theorem exists_statementsAsk (resolver : Resolver ρ) (statements : List Statement)
    (s : CompileState ρ) : ∃ asked, StatementsAsk resolver s statements asked := by
  induction statements generalizing s with
  | nil => exact ⟨[], .done s⟩
  | cons statement rest ih =>
      obtain ⟨asked, hasked⟩ := exists_assignmentsAsk resolver statement.assignments s
      cases hrun : compileEach resolver [statement] s with
      | ok diagnostics t =>
          obtain ⟨more, hrest⟩ := ih t
          exact ⟨asked ++ more, .next hrun hasked hrest⟩
      | error failure t =>
          obtain ⟨fault, rfl⟩ := fault_of_compileEach hrun
          exact ⟨asked, .aborted hrun hasked⟩

theorem StatementsAsk.compileEach_notes {statements : List Statement}
    (h : StatementsAsk resolver s statements asked) :
    Notes (compileEach resolver statements) (compileEach resolver.noting statements) s asked := by
  induction h with
  | done s => exact Silent.pure [] s
  | @next s t statement rest diagnostics asked more hrun hasked _ ih =>
      rw [compileEach_cons resolver, compileEach_cons resolver.noting]
      exact hasked.compileEach_notes.bind_ok hrun (ih.bind_silent fun others => .pure _)
  | @aborted s t statement rest fault asked hrun hasked =>
      rw [compileEach_cons resolver, compileEach_cons resolver.noting]
      exact hasked.compileEach_notes.bind_error hrun

/-- The state when the compilation of statements has been announced. -/
def CompileState.announced (s : CompileState ρ) (statements : List Statement) : CompileState ρ :=
  s.logged (.phase LogEntry.phaseIndent
    ("Lowering " ++ Nat.repr statements.length ++ " statements"))

theorem StatementsAsk.notes {statements : List Statement}
    (h : StatementsAsk resolver (s.announced statements) statements asked) :
    Notes (compileStatementsWith resolver statements)
      (compileStatementsWith resolver.noting statements) s asked := by
  refine .after_silent (.record _) (t := s.announced statements) rfl ?_
  refine h.compileEach_notes.bind_silent fun diagnostics => ?_
  split
  · exact .pure diagnostics
  · exact .bind (.record _) fun _ => .pure diagnostics

end Statements

/-- The questions that an action with notes has noted down when it ends. -/
def CompileM.questions (noting : CompileM (ρ × List Expr) α) (s : CompileState ρ) : List Expr :=
  match noting (s.attach []) with
  | .ok _ t => t.own.2
  | .error _ t => t.own.2

/-- The action with notes does what the plain action does, and notes down what `asks` says. -/
structure CompileM.AsksFor (plain : CompileM ρ α) (noting : CompileM (ρ × List Expr) α)
    (s : CompileState ρ) (asks : List Expr → Prop) : Prop where
  notes : Notes plain noting s (questions noting s)
  questions_iff (asked : List Expr) : questions noting s = asked ↔ asks asked

theorem CompileM.Notes.questions_eq {plain : CompileM ρ α} {noting : CompileM (ρ × List Expr) α}
    {s : CompileState ρ} {asked : List Expr} (h : Notes plain noting s asked) :
    questions noting s = asked := by
  unfold questions
  rw [h []]
  cases plain s <;> rfl

theorem CompileM.AsksFor.of_notes {plain : CompileM ρ α} {noting : CompileM (ρ × List Expr) α}
    {s : CompileState ρ} {asks : List Expr → Prop} (hexists : ∃ asked, asks asked)
    (h : ∀ asked, asks asked → Notes plain noting s asked) : AsksFor plain noting s asks := by
  obtain ⟨asked, hasked⟩ := hexists
  have hquestions := (h asked hasked).questions_eq
  refine ⟨hquestions.symm ▸ h asked hasked, fun other => ⟨?_, fun hother => ?_⟩⟩
  · rintro rfl
    exact hquestions.symm ▸ hasked
  · exact (h other hother).questions_eq

/-- Whatever the resolver answers and does, an append asks it for nothing, for its indexes up to
the first that cannot be resolved, for all of them or for all of them and then its value, each
once and in order. A statement asks for its assignments in order up to the first that fails, and
a list of statements for all of them in order. -/
theorem compile_asks_for (resolver : Resolver ρ) (s : CompileState ρ) :
    (∀ target value span,
      AsksFor (compileAppend resolver target value span)
        (compileAppend resolver.noting target value span) s (target.Asks resolver value span s) ∧
      questions (compileAppend resolver.noting target value span) s <+:
        target.indexes ++ [value]) ∧
    (∀ statement : Statement,
      AsksFor (compileStatement resolver statement) (compileStatement resolver.noting statement) s
        (AssignmentsAsk resolver s statement.assignments)) ∧
    (∀ statements : List Statement,
      AsksFor (compileStatementsWith resolver statements)
        (compileStatementsWith resolver.noting statements) s
        (StatementsAsk resolver (s.announced statements) statements)) := by
  refine ⟨fun target value span => ?_, fun statement => ?_, fun statements => ?_⟩
  · have hasks : AsksFor (compileAppend resolver target value span)
        (compileAppend resolver.noting target value span) s (target.Asks resolver value span s) :=
      .of_notes (target.exists_asks resolver value span s) fun _ hasked => hasked.notes
    exact ⟨hasks, ((hasks.questions_iff _).mp rfl).prefix_all⟩
  · exact .of_notes (exists_assignmentsAsk resolver _ s) fun _ hasked => hasked.notes
  · exact .of_notes (exists_statementsAsk resolver _ _) fun _ hasked => hasked.notes

end AppendLowering
