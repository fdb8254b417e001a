import AppendLowering.Proofs.Append.Consultation

/-!
# The stages in the trace

With the codegen trace on, an assignment logs each stage that it passes, and
its rejection if it is rejected. As long as the resolver keeps out of this
trace, the trace tells how every assignment ended: it shows all five stages
exactly if the assignment was compiled, and otherwise some of the first stages
and the diagnostic. A call is emitted between the last two stages, and by an
assignment that passes them both.
-/

namespace AppendLowering

open CompileM

variable {ρ α β : Type}

/-- The message of an entry of the codegen trace. -/
def LogEntry.codegen? : LogEntry → Option String
  | .trace .codegen message => some message
  | _ => none

namespace CompileState

variable {s : CompileState ρ}

/-- The configuration lets the codegen trace through. -/
def Traced (s : CompileState ρ) : Prop := s.context.config.tracesComponent .codegen = true

/-- The messages of the codegen trace, in order. -/
def codegenTrace (s : CompileState ρ) : List String := s.log.filterMap LogEntry.codegen?

theorem codegenTrace_logged_trace (hs : s.Traced) (message : String) :
    (s.logged (.trace .codegen message)).codegenTrace = s.codegenTrace ++ [message] := by
  have henabled : (LogEntry.trace .codegen message).isEnabled s.context.config = true := hs
  simp [codegenTrace, logged, Log.record, henabled, LogEntry.codegen?]

theorem codegenTrace_logged {entry : LogEntry} (hentry : entry.codegen? = none) :
    (s.logged entry).codegenTrace = s.codegenTrace := by
  unfold codegenTrace logged Log.record
  split <;> simp [hentry]

end CompileState

namespace CompileM

variable {action : CompileM ρ α} {next : α → CompileM ρ β} {s t : CompileState ρ}

/-- The state in which an action leaves the compiler, however it ends. -/
def stateAfter (action : CompileM ρ α) (s : CompileState ρ) : CompileState ρ :=
  match action s with
  | .ok _ t => t
  | .error _ t => t

theorem stateAfter_ok {a : α} (h : action s = .ok a t) : stateAfter action s = t := by
  simp only [stateAfter, h]

theorem stateAfter_error {failure : Failure} (h : action s = .error failure t) :
    stateAfter action s = t := by
  simp only [stateAfter, h]

theorem context_stateAfter (action : CompileM ρ α) (s : CompileState ρ) :
    (stateAfter action s).context = contextAfter action s := by
  unfold stateAfter contextAfter
  cases action s <;> rfl

theorem stateAfter_bind_ok {a : α} (h : action s = .ok a t) :
    stateAfter (action >>= next) s = stateAfter (next a) t := by
  simp only [stateAfter, bind, EStateM.bind, h]

theorem stateAfter_bind_error {failure : Failure} (h : action s = .error failure t) :
    stateAfter (action >>= next) s = t := by
  simp only [stateAfter, bind, EStateM.bind, h]

theorem stateAfter_bind_pure (f : α → β) :
    stateAfter (action >>= fun a => pure (f a)) s = stateAfter action s := by
  unfold stateAfter
  simp only [bind, EStateM.bind]
  cases action s <;> rfl

theorem stateAfter_withSpan (span : Span) (action : CompileM ρ α) (s : CompileState ρ) :
    stateAfter (withSpan span action) s = stateAfter action s := by
  unfold stateAfter withSpan
  rcases action s with ⟨a, t⟩ | ⟨d | f, t⟩ <;> rfl

theorem value?_ok {a : α} (h : action s = .ok a t) : value? action s = some a := by
  simp only [value?, h]

theorem value?_error {failure : Failure} (h : action s = .error failure t) :
    value? action s = none := by
  simp only [value?, h]

/-- After a rejection it is possible to go back, or it is a fault. -/
theorem transaction_of_rejected {d : Diagnostic} (h : action s = .error (.rejected d) t) :
    (∃ u, transaction action s = .error (.rejected d) u) ∨
      ∃ fault u, transaction action s = .error (.fault fault) u := by
  unfold transaction
  rw [h]
  cases hback : t.context.rollback s.context.mark with
  | ok c => exact .inl ⟨{ t with context := c }, by simp only [hback]⟩
  | error fault => exact .inr ⟨fault, t, by simp only [hback]⟩

/-- The action leaves the codegen trace on, and writes nothing to it. -/
def Untraced (action : CompileM ρ α) : Prop :=
  ∀ s, s.Traced → (stateAfter action s).Traced ∧
    (stateAfter action s).codegenTrace = s.codegenTrace

end CompileM

/-- The second context is made of the first: by what the resolver does, by temporaries, by lines
that are no calls, by the calls in the list, each of them emitted once and in this order, and by
going back to a context that there was before. -/
inductive Resolver.Makes (resolver : Resolver ρ) : Context → List RuntimeCall → Context → Prop
  | refl (c : Context) : Makes resolver c [] c
  | trans {c d e : Context} {calls more : List RuntimeCall} (first : Makes resolver c calls d)
      (second : Makes resolver d more e) : Makes resolver c (calls ++ more) e
  | resolve (expr : Expr) (s : CompileState ρ) :
      Makes resolver s.context [] (contextAfter (resolver expr) s)
  | temporary (c : Context) (span : Span) : Makes resolver c [] (c.initTemporary span).2
  | line (c : Context) {line : Line} (hline : line.call? = none) :
      Makes resolver c [] (c.write line)
  | call (c : Context) (call : RuntimeCall) : Makes resolver c [call] (c.writeCall call)
  | undo {c d e : Context} {calls : List RuntimeCall} (h : Makes resolver c calls d)
      (hback : d.rollback c.mark = .ok e) : Makes resolver c calls e

/-- On the way from the first state to the second, the lines were added to the codegen trace, which
is still on, and the calls were emitted. -/
structure Resolver.Reaches (resolver : Resolver ρ) (s : CompileState ρ) (lines : List String)
    (calls : List RuntimeCall) (t : CompileState ρ) : Prop where
  traced : t.Traced
  trace : t.codegenTrace = s.codegenTrace ++ lines
  makes : resolver.Makes s.context calls t.context

theorem Context.config_of_rollback {c d : Context} {mark : Context.Mark}
    (h : c.rollback mark = .ok d) : d.config = c.config := by
  unfold Context.rollback at h
  cases hcode : c.code.rollback mark.code with
  | error fault => simp [hcode, bind, Except.bind] at h
  | ok code =>
      simp only [hcode, bind, Except.bind] at h
      cases h
      rfl

namespace Resolver.Reaches

variable {resolver : Resolver ρ} {s t u : CompileState ρ} {lines more : List String}
variable {calls others : List RuntimeCall}

theorem refl (hs : s.Traced) : resolver.Reaches s [] [] s where
  traced := hs
  trace := (List.append_nil _).symm
  makes := .refl _

theorem trans (first : resolver.Reaches s lines calls t)
    (second : resolver.Reaches t more others u) :
    resolver.Reaches s (lines ++ more) (calls ++ others) u where
  traced := second.traced
  trace := by rw [second.trace, first.trace, List.append_assoc]
  makes := first.makes.trans second.makes

/-- Other entries of the log do not matter. -/
theorem logged (h : resolver.Reaches s lines calls t) {entry : LogEntry}
    (hentry : entry.codegen? = none) : resolver.Reaches s lines calls (t.logged entry) where
  traced := h.traced
  trace := (CompileState.codegenTrace_logged hentry).trans h.trace
  makes := h.makes

theorem logged_trace (h : resolver.Reaches s lines calls t) (message : String) :
    resolver.Reaches s (lines ++ [message]) calls (t.logged (.trace .codegen message)) where
  traced := h.traced
  trace := by
    rw [CompileState.codegenTrace_logged_trace h.traced, h.trace, List.append_assoc]
  makes := h.makes

/-- What is undone stays in the trace, and was emitted. -/
theorem transaction {action : CompileM ρ α}
    (h : resolver.Reaches s lines calls (stateAfter action s)) :
    resolver.Reaches s lines calls (stateAfter (transaction action) s) := by
  unfold stateAfter CompileM.transaction
  unfold stateAfter at h
  rcases hrun : action s with ⟨a, t⟩ | ⟨d | f, t⟩ <;> rw [hrun] at h
  · exact h
  · cases hback : t.context.rollback s.context.mark with
    | error fault => simpa only [hback] using h
    | ok c =>
        simp only [hback]
        refine ⟨?_, h.trace, h.makes.undo hback⟩
        unfold CompileState.Traced
        rw [Context.config_of_rollback hback]
        exact h.traced
  · exact h

end Resolver.Reaches

namespace CompileM

/-- With the codegen trace on, the action adds nothing to it, and emits no call. -/
def Quiet (resolver : Resolver ρ) (action : CompileM ρ α) : Prop :=
  ∀ s, s.Traced → resolver.Reaches s [] [] (stateAfter action s)

namespace Quiet

variable {resolver : Resolver ρ} {action : CompileM ρ α}

theorem ofUntraced (h : ∀ expr, Untraced (resolver expr)) (expr : Expr) :
    Quiet resolver (resolver expr) := by
  intro s hs
  obtain ⟨htraced, htrace⟩ := h expr s hs
  refine ⟨htraced, htrace.trans (List.append_nil _).symm, ?_⟩
  rw [context_stateAfter]
  exact .resolve expr s

theorem pure (a : α) : Quiet resolver (pure a : CompileM ρ α) := fun _ hs => .refl hs

theorem bind {next : α → CompileM ρ β} (h : Quiet resolver action)
    (hnext : ∀ a, Quiet resolver (next a)) : Quiet resolver (action >>= next) := by
  intro s hs
  have hfirst := h s hs
  cases hrun : action s with
  | error failure t =>
      rw [stateAfter_error hrun] at hfirst
      rwa [stateAfter_bind_error hrun]
  | ok a t =>
      rw [stateAfter_ok hrun] at hfirst
      rw [stateAfter_bind_ok hrun]
      exact hfirst.trans (hnext a t hfirst.traced)

theorem reading (query : Context → Except Failure α) :
    Quiet resolver (CompileM.reading query : CompileM ρ α) := by
  intro s hs
  have hstate : stateAfter (CompileM.reading query) s = s := by
    unfold stateAfter CompileM.reading
    cases query s.context <;> rfl
  rw [hstate]
  exact .refl hs

theorem record {entry : LogEntry} (hentry : entry.codegen? = none) :
    Quiet resolver (CompileM.record entry : CompileM ρ Unit) :=
  fun _ hs => (Resolver.Reaches.refl hs).logged hentry

theorem write {line : Line} (hline : line.call? = none) :
    Quiet resolver (CompileM.write line : CompileM ρ Unit) :=
  fun s hs => ⟨hs, (List.append_nil _).symm, .line s.context hline⟩

theorem initTemporary (span : Span) :
    Quiet resolver (CompileM.initTemporary span : CompileM ρ String) :=
  fun s hs => ⟨hs, (List.append_nil _).symm, .temporary s.context span⟩

theorem reject (cause : Diagnostic.Cause) (span : Span) :
    Quiet resolver (CompileM.reject cause span : CompileM ρ α) := fun _ hs => .refl hs

theorem withSpan (h : Quiet resolver action) (span : Span) :
    Quiet resolver (CompileM.withSpan span action) := by
  intro s hs
  rw [stateAfter_withSpan]
  exact h s hs

theorem untraced (h : Quiet resolver action) : Untraced action := by
  intro s hs
  have hreaches := h s hs
  exact ⟨hreaches.traced, hreaches.trace.trans (List.append_nil _)⟩

end Quiet

end CompileM

section Parts

variable {resolver : Resolver ρ}

theorem Expr.traceResolved_quiet (expr : Expr) (value : Resolved) :
    Quiet resolver (expr.traceResolved value) :=
  .record rfl

mutual

theorem Expr.compile_quiet (expr : Expr) : Quiet resolver expr.compile := by
  cases expr with
  | literal value span =>
      rw [Expr.compile]
      exact (Expr.traceResolved_quiet _ _).bind fun _ => .pure _
  | var name span =>
      rw [Expr.compile]
      apply Quiet.bind (.reading _)
      intro v
      exact (Expr.traceResolved_quiet _ _).bind fun _ => .pure _
  | array items span =>
      rw [Expr.compile]
      apply Quiet.bind (.initTemporary span)
      intro holder
      apply Quiet.bind (.write rfl)
      intro _
      apply Quiet.bind (Expr.compileItems_quiet holder items)
      intro _
      exact (Expr.traceResolved_quiet _ _).bind fun _ => .pure _

theorem Expr.compileItems_quiet (holder : String) (items : List Expr) :
    Quiet resolver (Expr.compileItems holder items) := by
  cases items with
  | nil =>
      rw [Expr.compileItems]
      exact .pure ()
  | cons item rest =>
      rw [Expr.compileItems]
      apply Quiet.bind (Expr.compile_quiet item)
      intro value
      apply Quiet.bind (.reading _)
      intro operand
      apply Quiet.bind (.write rfl)
      intro _
      exact Expr.compileItems_quiet holder rest

end

theorem resolveIndexes_quiet (hresolver : ∀ expr, Quiet resolver (resolver expr)) (span : Span)
    (indexes : List Expr) : Quiet resolver (resolveIndexes resolver span indexes) := by
  induction indexes with
  | nil => exact .pure []
  | cons index rest ih =>
      apply Quiet.bind ((hresolver index).withSpan span)
      intro value
      split
      · exact ih.bind fun values => .pure _
      · exact .reject _ _

theorem classifyIndexes_quiet (span : Span) (chain : KeyChain) (values : List Resolved) :
    Quiet resolver (classifyIndexes span chain values) := by
  induction values generalizing chain with
  | nil => exact .pure chain
  | cons value rest ih =>
      refine .bind (.bind (.reading _) fun encoding => ?_) fun encoding => ih _
      exact .bind (.record rfl) fun _ => .pure encoding

theorem Resolved.hold_quiet (value : Resolved) : Quiet resolver value.hold := by
  apply Quiet.bind (.reading _)
  intro operand
  cases operand with
  | held name => exact .pure name
  | immediate immediate =>
      apply Quiet.bind (.initTemporary _)
      intro holder
      split
      · exact .bind (.write rfl) fun _ => .pure holder
      · exact .bind (.record rfl) fun _ => .bind (.write rfl) fun _ => .pure holder

theorem holdValue_quiet (hresolver : ∀ expr, Quiet resolver (resolver expr)) (value : Expr) :
    Quiet resolver (holdValue resolver value) :=
  (hresolver value).bind Resolved.hold_quiet

end Parts

/-- The stages, in the order in which an assignment passes them. -/
def Stage.all : List Stage :=
  [.targetValidated, .indicesResolved, .indicesClassified, .rhsPrepared, .emitted]

/-- The trace of an assignment that has passed a stage. -/
def Container.stageLine (container : Container) (stage : Stage) : String :=
  container.function ++ ": " ++ stage.name

/-- The trace of an assignment that is rejected. -/
def Container.rejectionLine (container : Container) (diagnostic : Diagnostic) : String :=
  container.function ++ " rejected: " ++ diagnostic.message

theorem Container.stageLine_injective (container : Container) :
    Function.Injective container.stageLine := by
  intro stage other h
  have hname : stage.name = other.name := by
    simpa only [stageLine, String.append_right_inj] using h
  cases stage <;> cases other <;> first | rfl | exact absurd hname (by decide)

/-- Whoever has not passed all stages has not passed the last. -/
theorem Stage.emitted_notMem_of_part {passed : List Stage} (hpart : passed <+: Stage.all)
    (hne : passed ≠ Stage.all) : Stage.emitted ∉ passed := by
  have hinit : passed <+: [.targetValidated, .indicesResolved, .indicesClassified, .rhsPrepared] :=
    (List.prefix_concat_iff.mp hpart).resolve_left hne
  intro hmem
  exact absurd (hinit.subset hmem) (by decide)

/-- After the function comes a colon in the one, and a blank in the other. -/
theorem Container.stageLine_ne_rejectionLine (container : Container) (stage : Stage)
    (diagnostic : Diagnostic) : container.stageLine stage ≠ container.rejectionLine diagnostic := by
  intro h
  have hrest : ": " ++ stage.name = " rejected: " ++ diagnostic.message := by
    simpa only [stageLine, rejectionLine, String.append_assoc, String.append_right_inj] using h
  have hhead := congrArg (fun text : String => text.toList.head?) hrest
  simp at hhead

/-- With the codegen trace on, the action logs the stages and emits its call if it succeeds. If it
fails it has logged some of the first stages, but not all, and emitted nothing. -/
structure CompileM.Staged (resolver : Resolver ρ) (container : Container) (stages : List Stage)
    (action : CompileM ρ RuntimeCall) : Prop where
  ok {s t : CompileState ρ} {call : RuntimeCall} : s.Traced → action s = .ok call t →
    resolver.Reaches s (stages.map container.stageLine) [call] t
  error {s t : CompileState ρ} {failure : Failure} : s.Traced → action s = .error failure t →
    ∃ passed, passed <+: stages ∧ passed ≠ stages ∧
      resolver.Reaches s (passed.map container.stageLine) [] t

namespace CompileM.Staged

variable {resolver : Resolver ρ} {container : Container} {stages : List Stage}

/-- One stage: what is done for it, the note that it is passed, and the stages after it. -/
theorem step {action : CompileM ρ α} {next : α → CompileM ρ RuntimeCall} (stage : Stage)
    (h : Quiet resolver action) (hnext : ∀ a, Staged resolver container stages (next a)) :
    Staged resolver container (stage :: stages) (do
      let a ← action
      traceStage container stage
      next a) := by
  have hpassed {s t : CompileState ρ} {a : α} (hs : s.Traced) (hrun : action s = .ok a t) :
      resolver.Reaches s [container.stageLine stage] [] (t.passed container stage) := by
    have hfirst := h s hs
    rw [stateAfter_ok hrun] at hfirst
    exact hfirst.logged_trace _
  have hrest {s t : CompileState ρ} {a : α} (hrun : action s = .ok a t) :
      (do let a ← action; traceStage container stage; next a : CompileM ρ RuntimeCall) s =
        next a (t.passed container stage) := by
    simp only [Bind.bind, EStateM.bind, hrun, traceStage_eq]
  constructor
  · intro s t call hs hall
    obtain ⟨a, u, hrun, -⟩ := bind_ok hall
    rw [hrest hrun] at hall
    have hstage := hpassed hs hrun
    exact hstage.trans ((hnext a).ok hstage.traced hall)
  · intro s t failure hs hall
    cases hrun : action s with
    | ok a u =>
        rw [hrest hrun] at hall
        have hstage := hpassed hs hrun
        obtain ⟨passed, hpart, hne, hreaches⟩ := (hnext a).error hstage.traced hall
        refine ⟨stage :: passed, List.cons_prefix_cons.mpr ⟨rfl, hpart⟩, ?_, ?_⟩
        · exact fun heq => hne (List.cons.inj heq).2
        · exact hstage.trans hreaches
    | error failed u =>
        simp only [Bind.bind, EStateM.bind, hrun] at hall
        cases hall
        have hfirst := h s hs
        rw [stateAfter_error hrun] at hfirst
        exact ⟨[], List.nil_prefix, (List.cons_ne_nil _ _).symm, hfirst⟩

/-- The last stage emits the call, and cannot fail. -/
theorem emit (container : Container) (call : Context → RuntimeCall) :
    Staged resolver container [.emitted] (do
      let made ← CompileM.updating fun context => (call context, context.writeCall (call context))
      traceStage container .emitted
      return made) where
  ok {s t made} hs hrun := by
    have hcalled : resolver.Reaches s [] [call s.context]
        { s with context := s.context.writeCall (call s.context) } :=
      ⟨hs, (List.append_nil _).symm, .call _ _⟩
    cases hrun
    exact hcalled.logged_trace _
  error _ hrun := by cases hrun

end CompileM.Staged

/-- An append is lowered stage by stage. -/
theorem lowerAppend_staged {resolver : Resolver ρ}
    (hresolver : ∀ expr, Quiet resolver (resolver expr)) (target : Target) (value : Expr)
    (span : Span) :
    Staged resolver target.container Stage.all (lowerAppend resolver target value span) := by
  apply Staged.step .targetValidated (.reading _)
  intro _
  apply Staged.step .indicesResolved (resolveIndexes_quiet hresolver span target.indexes)
  intro indexes
  apply Staged.step .indicesClassified (classifyIndexes_quiet span .empty indexes)
  intro chain
  apply Staged.step .rhsPrepared ((holdValue_quiet hresolver value).withSpan span)
  intro holder
  exact .emit target.container fun context =>
    { container := target.container, holder, chain, zts := context.config.codegen.zts }

/-- An assignment that the compiler has begun with, and the state in which it has. -/
structure Attempt (ρ : Type) where
  assignment : Assignment
  start : CompileState ρ

namespace Attempt

def container (attempt : Attempt ρ) : Container := attempt.assignment.target.container

/-- How the attempt ends. -/
def run (resolver : Resolver ρ) (attempt : Attempt ρ) :
    EStateM.Result Failure (CompileState ρ) RuntimeCall :=
  compileAssignment resolver attempt.assignment attempt.start

/-- The call that the attempt gives, if it succeeds. -/
def call? (resolver : Resolver ρ) (attempt : Attempt ρ) : Option RuntimeCall :=
  value? (compileAssignment resolver attempt.assignment) attempt.start

/-- What the attempt adds to the codegen trace. -/
def trace (resolver : Resolver ρ) (attempt : Attempt ρ) : List String :=
  (stateAfter (compileAssignment resolver attempt.assignment) attempt.start).codegenTrace.drop
    attempt.start.codegenTrace.length

/-- The traces of an attempt for each of the ways in which it can end: all stages if it succeeds; if
it is rejected, some of the first stages, but not all, and the diagnostic that it is rejected with.
With a fault of the compiler itself, which may come after the rejection, it breaks off. -/
inductive Ends (container : Container) :
    EStateM.Result Failure (CompileState ρ) RuntimeCall → List String → Prop
  | compiled {call : RuntimeCall} {t : CompileState ρ} :
      Ends container (.ok call t) (Stage.all.map container.stageLine)
  | rejected {diagnostic : Diagnostic} {t : CompileState ρ} {passed : List Stage}
      (hpart : passed <+: Stage.all) (hne : passed ≠ Stage.all) :
      Ends container (.error (.rejected diagnostic) t)
        (passed.map container.stageLine ++ [container.rejectionLine diagnostic])
  | faulted (diagnostic? : Option Diagnostic) {fault : Fault} {t : CompileState ρ}
      {passed : List Stage} (hpart : passed <+: Stage.all) (hne : passed ≠ Stage.all) :
      Ends container (.error (.fault fault) t)
        (passed.map container.stageLine ++ (diagnostic?.map container.rejectionLine).toList)

namespace Ends

variable {container : Container} {lines : List String}
variable {result : EStateM.Result Failure (CompileState ρ) RuntimeCall}

/-- The trace reaches the last stage exactly if the attempt succeeds. -/
theorem emitted_iff (h : Ends container result lines) :
    container.stageLine .emitted ∈ lines ↔ ∃ call t, result = .ok call t := by
  have hmap {passed : List Stage} (hpart : passed <+: Stage.all) (hne : passed ≠ Stage.all) :
      container.stageLine .emitted ∉ passed.map container.stageLine := by
    rw [List.mem_map_of_injective container.stageLine_injective]
    exact Stage.emitted_notMem_of_part hpart hne
  cases h with
  | @compiled call t =>
      have hmem : Stage.emitted ∈ Stage.all := by decide
      exact ⟨fun _ => ⟨call, t, rfl⟩, fun _ => List.mem_map_of_mem hmem⟩
  | @rejected diagnostic t passed hpart hne =>
      simp [hmap hpart hne, container.stageLine_ne_rejectionLine]
  | faulted diagnostic? hpart hne =>
      cases diagnostic? with
      | none => simp [hmap hpart hne]
      | some diagnostic => simp [hmap hpart hne, container.stageLine_ne_rejectionLine]

/-- The trace shows all stages and nothing else exactly if the attempt succeeds. -/
theorem all_iff (h : Ends container result lines) :
    lines = Stage.all.map container.stageLine ↔ ∃ call t, result = .ok call t := by
  constructor
  · rintro rfl
    have hmem : Stage.emitted ∈ Stage.all := by decide
    exact h.emitted_iff.mp (List.mem_map_of_mem hmem)
  · rintro ⟨call, t, rfl⟩
    cases h with
    | compiled => rfl

end Ends

end Attempt

section Attempts

variable {resolver : Resolver ρ} {s : CompileState ρ}

theorem compileAppend_ends (hresolver : ∀ expr, Quiet resolver (resolver expr)) (target : Target)
    (value : Expr) (span : Span) (hs : s.Traced) :
    ∃ lines, Attempt.Ends target.container (compileAppend resolver target value span s) lines ∧
      resolver.Reaches s lines (value? (compileAppend resolver target value span) s).toList
        (stateAfter (compileAppend resolver target value span) s) := by
  have hstaged := lowerAppend_staged hresolver target value span
  rcases hrun : lowerAppend resolver target value span s with ⟨call, t⟩ | ⟨d | f, t⟩
  · have hall : compileAppend resolver target value span s = .ok call t := by
      simp only [compileAppend, CompileM.transaction, CompileM.onRejection, hrun]
    rw [hall, value?_ok hall, stateAfter_ok hall]
    exact ⟨_, .compiled, hstaged.ok hs hrun⟩
  · obtain ⟨passed, hpart, hne, hreaches⟩ := hstaged.error hs hrun
    have hlogged : CompileM.onRejection
        (fun d => .trace .codegen (target.container.rejectionLine d))
        (lowerAppend resolver target value span) s = .error (.rejected d)
          (t.logged (.trace .codegen (target.container.rejectionLine d))) := by
      simp only [CompileM.onRejection, hrun]
      rfl
    have hundone : resolver.Reaches s (passed.map target.container.stageLine ++
        [target.container.rejectionLine d]) []
          (stateAfter (compileAppend resolver target value span) s) :=
      Resolver.Reaches.transaction (stateAfter_error hlogged ▸ hreaches.logged_trace _)
    -- going back may itself fail, and the rejection is in the trace by then
    rcases transaction_of_rejected hlogged with ⟨u, hall⟩ | ⟨fault, u, hall⟩
    all_goals
      change compileAppend resolver target value span s = _ at hall
      rw [hall, value?_error hall]
    · exact ⟨_, .rejected hpart hne, hundone⟩
    · exact ⟨_, .faulted (some d) hpart hne, hundone⟩
  · obtain ⟨passed, hpart, hne, hreaches⟩ := hstaged.error hs hrun
    have hall : compileAppend resolver target value span s = .error (.fault f) t := by
      simp only [compileAppend, CompileM.transaction, CompileM.onRejection, hrun]
    rw [hall, value?_error hall, stateAfter_error hall]
    exact ⟨_, .faulted none hpart hne, (List.append_nil _).symm ▸ hreaches⟩

theorem Attempt.ends_and_reaches (hresolver : ∀ expr, Quiet resolver (resolver expr))
    {attempt : Attempt ρ} (hstart : attempt.start.Traced) :
    Attempt.Ends attempt.container (attempt.run resolver) (attempt.trace resolver) ∧
      resolver.Reaches attempt.start (attempt.trace resolver) (attempt.call? resolver).toList
        (stateAfter (compileAssignment resolver attempt.assignment) attempt.start) := by
  obtain ⟨lines, hends, hreaches⟩ := compileAppend_ends hresolver attempt.assignment.target
    attempt.assignment.value attempt.assignment.span hstart
  have htrace : attempt.trace resolver = lines := by
    unfold Attempt.trace compileAssignment
    rw [hreaches.trace, List.drop_left]
  rw [htrace]
  exact ⟨hends, hreaches⟩

end Attempts

end AppendLowering
