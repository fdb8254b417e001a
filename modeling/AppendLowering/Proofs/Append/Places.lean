import AppendLowering.Proofs.Compile.Acceptance
import AppendLowering.Proofs.Compile.Reads

/-!
# Where a rejected assignment is marked

The diagnostic of a rejected assignment marks what is to blame: the assignment
as a whole for its container, the index for its type, and the variable itself,
however deep in array literals, if it cannot be read. What lies in no file is
marked by the place of the assignment. So an assignment with a place never has a
diagnostic without one, whatever compiles its expressions.
-/

namespace AppendLowering

namespace CompileM

variable {ρ α β : Type} {action : CompileM ρ α} {s t : CompileState ρ}

/-- A sequence that fails has failed in one of its parts. -/
theorem bind_error {next : α → CompileM ρ β} {failure : Failure}
    (h : (action >>= next) s = .error failure t) :
    action s = .error failure t ∨ ∃ a u, action s = .ok a u ∧ next a u = .error failure t := by
  simp only [Bind.bind, EStateM.bind] at h
  cases hrun : action s with
  | ok a u => exact .inr ⟨a, u, rfl, by simpa only [hrun] using h⟩
  | error failure u =>
      rw [hrun] at h
      cases h
      exact .inl rfl

theorem reading_error {query : Context → Except Failure α} {failure : Failure}
    (h : (reading query : CompileM ρ α) s = .error failure t) :
    query s.context = .error failure := by
  unfold reading at h
  split at h
  · cases h
  · next hquery =>
      cases h
      exact hquery

theorem withSpan_rejected {span : Span} {d : Diagnostic}
    (h : withSpan span action s = .error (.rejected d) t) :
    ∃ inner, action s = .error (.rejected inner) t ∧ d = inner.orSpan span := by
  unfold withSpan at h
  rcases hrun : action s with ⟨a, u⟩ | ⟨inner | f, u⟩ <;> rw [hrun] at h <;> cases h
  exact ⟨inner, rfl, rfl⟩

theorem onRejection_rejected {entry : Diagnostic → LogEntry} {d : Diagnostic}
    (h : onRejection entry action s = .error (.rejected d) t) :
    ∃ u, action s = .error (.rejected d) u := by
  unfold onRejection at h
  rcases hrun : action s with ⟨a, u⟩ | ⟨inner | f, u⟩ <;> rw [hrun] at h <;> cases h
  exact ⟨u, rfl⟩

theorem transaction_rejected {d : Diagnostic}
    (h : transaction action s = .error (.rejected d) t) :
    ∃ u, action s = .error (.rejected d) u := by
  unfold transaction at h
  rcases hrun : action s with ⟨a, u⟩ | ⟨inner | f, u⟩ <;> simp only [hrun] at h
  · cases h
  · split at h <;> cases h
    exact ⟨u, rfl⟩
  · cases h

/-- Whatever the action is rejected for has a place in a file. -/
def Located (action : CompileM ρ α) : Prop :=
  ∀ s d t, action s = .error (.rejected d) t → d.span.file ≠ FileId.synthetic

namespace Located

theorem pure (a : α) : Located (pure a : CompileM ρ α) := by
  intro s d t h
  cases h

theorem updating (change : Context → α × Context) :
    Located (CompileM.updating change : CompileM ρ α) := by
  intro s d t h
  cases h

theorem record (entry : LogEntry) : Located (CompileM.record entry : CompileM ρ Unit) := by
  intro s d t h
  cases h

theorem bind {next : α → CompileM ρ β} (hfirst : Located action) (hnext : ∀ a, Located (next a)) :
    Located (action >>= next) := by
  intro s d t h
  rcases bind_error h with h | ⟨a, u, -, h⟩
  · exact hfirst s d t h
  · exact hnext a u d t h

theorem reading {query : Context → Except Failure α}
    (h : ∀ c d, query c = .error (.rejected d) → d.span.file ≠ FileId.synthetic) :
    Located (CompileM.reading query : CompileM ρ α) := by
  intro s d t hrun
  exact h s.context d (reading_error hrun)

end Located

end CompileM

theorem Span.located_orElse {span : Span} (h : span.file ≠ FileId.synthetic) (place : Span) :
    (place.orElse span).file ≠ FileId.synthetic := by
  unfold Span.orElse
  split
  · exact h
  · next hplace => simpa [Span.isSynthetic] using hplace

section Queries

variable {c : Context} {name : String} {span : Span} {d : Diagnostic}

theorem query_bind_error {α β : Type} {first : Except Failure α} {next : α → Except Failure β}
    {failure : Failure} (h : (first >>= next) = .error failure) :
    first = .error failure ∨ ∃ a, first = .ok a ∧ next a = .error failure := by
  cases first with
  | ok a => exact .inr ⟨a, rfl, h⟩
  | error failure =>
      cases h
      exact .inl rfl

theorem Context.span_of_getVariable (h : c.getVariable name span = .error (.rejected d)) :
    d.span = span := by
  unfold getVariable at h
  split at h <;> cases h
  rfl

theorem Context.span_of_readVariable (h : c.readVariable name span = .error (.rejected d)) :
    d.span = span := by
  rcases query_bind_error h with h | ⟨v, -, h⟩
  · exact span_of_getVariable h
  · split at h <;> cases h
    rfl

theorem Container.span_of_validate {container : Container}
    (h : container.validate span c = .error (.rejected d)) : d.span = span := by
  unfold validate at h
  split at h
  · cases h
  rcases query_bind_error h with h | ⟨v, -, h⟩
  · exact Context.span_of_getVariable h
  dsimp only at h
  split at h
  · cases h
    rfl
  · split at h <;> cases h
    rfl

theorem Resolved.span_of_encoding {index : Resolved}
    (h : index.encoding span c = .error (.rejected d)) : d.span = index.span.orElse span := by
  unfold encoding at h
  split at h
  case h_6 =>
    rcases query_bind_error h with h | ⟨v, -, h⟩
    · exact Context.span_of_readVariable h
    · split at h <;> cases h
      rfl
  all_goals
    cases h
    try rfl

end Queries

open CompileM

section Located

variable {ρ : Type} {span : Span} (resolver : Resolver ρ)

theorem CompileM.Located.withSpan {α : Type} (hspan : span.file ≠ FileId.synthetic)
    (action : CompileM ρ α) : Located (CompileM.withSpan span action) := by
  intro s d t h
  obtain ⟨inner, -, rfl⟩ := withSpan_rejected h
  exact Span.located_orElse hspan inner.span

theorem resolveIndexes_located (hspan : span.file ≠ FileId.synthetic) (indexes : List Expr) :
    Located (resolveIndexes resolver span indexes) := by
  induction indexes with
  | nil => exact .pure []
  | cons index rest ih =>
      refine .bind (.withSpan hspan (resolver index)) fun value => ?_
      split
      · exact .bind ih fun values => .pure _
      · intro s d t h
        cases h
        exact Span.located_orElse hspan index.span

theorem classifyIndexes_located (hspan : span.file ≠ FileId.synthetic) (indexes : List Resolved)
    (chain : KeyChain) : Located (classifyIndexes span chain indexes : CompileM ρ KeyChain) := by
  induction indexes generalizing chain with
  | nil => exact .pure chain
  | cons index rest ih =>
      have hencoding : Located (CompileM.reading (index.encoding span) : CompileM ρ Encoding) :=
        .reading fun c d h => Resolved.span_of_encoding h ▸ Span.located_orElse hspan index.span
      refine .bind (.bind hencoding fun encoding => ?_) fun encoding => ih _
      exact .bind (.record _) fun _ => .pure encoding

theorem lowerAppend_located (hspan : span.file ≠ FileId.synthetic) (target : Target)
    (value : Expr) : Located (lowerAppend resolver target value span) := by
  refine .bind (.reading fun c d h => Container.span_of_validate h ▸ hspan) fun _ => ?_
  refine .bind (.record _) fun _ => ?_
  refine .bind (resolveIndexes_located resolver hspan target.indexes) fun indexes => ?_
  refine .bind (.record _) fun _ => ?_
  refine .bind (classifyIndexes_located hspan indexes .empty) fun chain => ?_
  refine .bind (.record _) fun _ => ?_
  refine .bind (.withSpan hspan (holdValue resolver value)) fun holder => ?_
  refine .bind (.record _) fun _ => ?_
  refine .bind (.updating _) fun call => ?_
  exact .bind (.record _) fun _ => .pure call

theorem compileAssignment_located (assignment : Assignment)
    (hspan : assignment.span.file ≠ FileId.synthetic) :
    Located (compileAssignment resolver assignment) := by
  intro s d t h
  obtain ⟨u, h⟩ := transaction_rejected h
  obtain ⟨u, h⟩ := onRejection_rejected h
  exact lowerAppend_located resolver hspan assignment.target assignment.value s d u h

end Located

/-- What an assignment is rejected for when it is compiled from `c` on, and the place of it. -/
inductive Assignment.Offends (c : Context) (assignment : Assignment) :
    Diagnostic.Cause → Span → Prop
  /-- The container cannot be appended to. -/
  | container {cause : Diagnostic.Cause}
      (h : assignment.target.container.fault? c assignment.span =
        some { cause, span := assignment.span }) :
      Offends c assignment cause assignment.span
  /-- A variable of an index cannot be read. -/
  | indexRead {before after : List Expr} {index : Expr} {cause : Diagnostic.Cause} {place : Span}
      (hindexes : assignment.target.indexes = before ++ index :: after)
      (hbefore : ∀ earlier ∈ before, earlier.indexFault? c assignment.span = none)
      (h : c.FailsAt index.reads cause place) : Offends c assignment cause place
  /-- An index is neither an integer, nor a string, nor a variable. -/
  | index {before after : List Expr} {index : Expr}
      (hindexes : assignment.target.indexes = before ++ index :: after)
      (hbefore : ∀ earlier ∈ before, earlier.indexFault? c assignment.span = none)
      (h : index.type.isIndex = false) :
      Offends c assignment (.unsupportedIndex index.display index.type) index.span
  /-- An index is a variable of a type that is no index. -/
  | variableIndex {before after : List Expr} {name : String} {place : Span} {v : Variable}
      (hindexes : assignment.target.indexes = before ++ .var name place :: after)
      (hbefore : ∀ earlier ∈ before, earlier.encodingFault? c assignment.span = none)
      (hlookup : c.symbols.lookup name = .ok (some v)) (h : v.encoding? = none) :
      Offends c assignment (.unsupportedVariableIndex name v.type) place
  /-- A variable of the value cannot be read. -/
  | valueRead {cause : Diagnostic.Cause} {place : Span}
      (h : c.FailsAt assignment.value.reads cause place) : Offends c assignment cause place

section Offends

variable {ρ : Type} {s t : CompileState ρ} {span : Span} {d : Diagnostic}

/-- An index that was compiled leaves the context as it is, and has no fault in it. -/
theorem Expr.faultless_of_ok {index : Expr} {value : Resolved} (hs : s.context.Reachable)
    (h : index.compile s = .ok value t) (hindex : value.type.isIndex = true) (span : Span) :
    t.context = s.context ∧ index.indexFault? s.context span = none := by
  have htype := (Expr.compile_returns index hs s value t .refl h).type_eq
  have hreads := (Expr.compile_scans index hs).readable h
  obtain ⟨lines, hlines⟩ := index.compiles_of_ok h
  obtain ⟨-, hsame⟩ := hlines.of_isIndex hindex
  refine ⟨hsame, ?_⟩
  rw [Expr.indexFault?, ← hsame, hreads, if_pos (htype ▸ hindex)]
  rfl

theorem resolveIndexes_rejected {indexes : List Expr} (hs : s.context.Reachable)
    (h : resolveIndexes Expr.compile span indexes s = .error (.rejected d) t) :
    ∃ before index after, indexes = before ++ index :: after ∧
      (∀ earlier ∈ before, earlier.indexFault? s.context span = none) ∧
      ((∃ place, s.context.FailsAt index.reads d.cause place ∧ d.span = place.orElse span) ∨
        index.type.isIndex = false ∧
          d = { cause := .unsupportedIndex index.display index.type
                span := index.span.orElse span }) := by
  induction indexes generalizing s with
  | nil => cases h
  | cons index rest ih =>
      rcases bind_error h with h | ⟨value, u, hvalue, h⟩
      · obtain ⟨inner, hinner, rfl⟩ := withSpan_rejected h
        have hfails := (Expr.compile_scans index hs).failsAt hs (Expr.compile_onlyAdds index) hinner
        exact ⟨[], index, rest, rfl, by simp, .inl ⟨inner.span, hfails, rfl⟩⟩
      have hcompiled := withSpan_ok hvalue
      have htype := (Expr.compile_returns index hs s value u .refl hcompiled).type_eq
      split at h
      · next hindex =>
          obtain ⟨hsame, hfaultless⟩ := Expr.faultless_of_ok hs hcompiled hindex span
          have hrest : resolveIndexes Expr.compile span rest u = .error (.rejected d) t := by
            rcases bind_error h with h | ⟨values, w, -, h⟩
            · exact h
            · cases h
          obtain ⟨before, offending, after, rfl, hbefore, hcase⟩ := ih (hsame ▸ hs) hrest
          rw [hsame] at hbefore hcase
          exact ⟨index :: before, offending, after, rfl,
            List.forall_mem_cons.mpr ⟨hfaultless, hbefore⟩, hcase⟩
      · next hindex =>
          cases h
          rw [htype] at hindex ⊢
          exact ⟨[], index, rest, rfl, by simp, .inr ⟨by simpa using hindex, rfl⟩⟩

theorem resolveIndexes_faultless {indexes : List Expr} {values : List Resolved}
    (hs : s.context.Reachable)
    (h : resolveIndexes Expr.compile span indexes s = .ok values t) :
    ∀ index ∈ indexes, index.indexFault? s.context span = none := by
  induction indexes generalizing s t values with
  | nil => simp
  | cons index rest ih =>
      obtain ⟨value, u, hvalue, h⟩ := bind_ok h
      split at h
      · next hindex =>
          obtain ⟨others, w, hothers, -⟩ := bind_ok h
          obtain ⟨hsame, hfaultless⟩ := Expr.faultless_of_ok hs (withSpan_ok hvalue) hindex span
          exact List.forall_mem_cons.mpr ⟨hfaultless, hsame ▸ ih (hsame ▸ hs) hothers⟩
      · cases h

theorem Expr.encodingFault?_eq_some {c : Context} {index : Expr}
    (h : index.encodingFault? c span = some d) :
    ∃ name place v, index = .var name place ∧ c.symbols.lookup name = .ok (some v) ∧
      v.encoding? = none ∧
      d = { cause := .unsupportedVariableIndex name v.type, span := place.orElse span } := by
  unfold Expr.encodingFault? at h
  split at h
  · next name place =>
      split at h
      · next v hlookup =>
          split at h
          · cases h
          · next hencoding =>
              cases h
              exact ⟨name, place, v, rfl, hlookup, by simpa using hencoding, rfl⟩
      · cases h
  · cases h

theorem classifyIndexes_rejected {indexes : List Expr} {values : List Resolved} {chain : KeyChain}
    (hs : s.context.Reachable) (hvalues : List.Forall₂ Expr.YieldsIndex indexes values)
    (hfaultless : ∀ index ∈ indexes, index.indexFault? s.context span = none)
    (h : classifyIndexes span chain values s = .error (.rejected d) t) :
    ∃ before name place after v, indexes = before ++ .var name place :: after ∧
      (∀ earlier ∈ before, earlier.encodingFault? s.context span = none) ∧
      s.context.symbols.lookup name = .ok (some v) ∧ v.encoding? = none ∧
      d = { cause := .unsupportedVariableIndex name v.type, span := place.orElse span } := by
  have hverdict := classifyIndexes_settles span chain hvalues
    (fun index hmem => Expr.settled_of_faultless (hfaultless index hmem))
    (List.findSome?_eq_none_iff.mpr hfaultless) hs s .refl
  rw [h] at hverdict
  obtain ⟨before, index, after, hindexes, hindex, hbefore⟩ :=
    List.findSome?_eq_some_iff.mp hverdict.eq_some
  obtain ⟨name, place, v, rfl, hv⟩ := Expr.encodingFault?_eq_some hindex
  exact ⟨before, name, place, after, v, hindexes, hbefore, hv⟩

theorem lowerAppend_offends (assignment : Assignment) (hs : s.context.Reachable)
    (h : lowerAppend Expr.compile assignment.target assignment.value assignment.span s =
      .error (.rejected d) t) :
    ∃ place, assignment.Offends s.context d.cause place ∧
      d.span = place.orElse assignment.span := by
  rcases bind_error h with h | ⟨_, s₁, hcheck, h⟩
  · have hverdict : Verdict _ (CompileM.reading _ s) :=
      Container.validate_verdict assignment.target.container assignment.span hs.wellFormed
    have hspan := Container.span_of_validate (reading_error h)
    rw [h] at hverdict
    refine ⟨assignment.span, .container ?_, by simp [Span.orElse, hspan]⟩
    rw [hverdict.eq_some, ← hspan]
  obtain ⟨-, rfl⟩ := reading_ok hcheck
  rcases bind_error h with h | ⟨_, s₂, hstage₁, h⟩
  · cases h
  have hsame₂ : s₂.context = s.context := record_ok hstage₁
  rcases bind_error h with h | ⟨values, s₃, hvalues, h⟩
  · obtain ⟨before, index, after, hindexes, hbefore, hcase⟩ :=
      resolveIndexes_rejected (hsame₂ ▸ hs) h
    rw [hsame₂] at hbefore hcase
    rcases hcase with ⟨place, hfails, hspan⟩ | ⟨htype, rfl⟩
    · exact ⟨place, .indexRead hindexes hbefore hfails, hspan⟩
    · exact ⟨index.span, .index hindexes hbefore htype, rfl⟩
  rcases bind_error h with h | ⟨_, s₄, hstage₂, h⟩
  · cases h
  -- compiled indexes have left the context as it was, and so does their classification
  have hsame₄ : s₄.context = s.context :=
    (record_ok hstage₂).trans ((indexes_of_ok hvalues).2.trans hsame₂)
  have hfaultless := resolveIndexes_faultless (hsame₂ ▸ hs) hvalues
  rcases bind_error h with h | ⟨chain, s₅, hchain, h⟩
  · have hyields := resolveIndexes_returns assignment.span assignment.target.indexes
      (hsame₂ ▸ hs) s₂ values s₃ .refl hvalues
    rw [hsame₂, ← hsame₄] at hfaultless
    obtain ⟨before, name, place, after, v, hindexes, hbefore, hlookup, hencoding, rfl⟩ :=
      classifyIndexes_rejected (hsame₄ ▸ hs) hyields hfaultless h
    rw [hsame₄] at hbefore hlookup
    exact ⟨place, .variableIndex hindexes hbefore hlookup hencoding, rfl⟩
  rcases bind_error h with h | ⟨_, s₆, hstage₃, h⟩
  · cases h
  have hsame₆ : s₆.context = s.context :=
    (record_ok hstage₃).trans ((classified_of_ok hchain).trans hsame₄)
  rcases bind_error h with h | ⟨holder, s₇, hholder, h⟩
  · obtain ⟨inner, hinner, rfl⟩ := withSpan_rejected h
    have hfails := (holdValue_scans assignment.value (hsame₆ ▸ hs)).failsAt (hsame₆ ▸ hs)
      (holdValue_onlyAdds Expr.compile_onlyAdds assignment.value) hinner
    exact ⟨inner.span, .valueRead (hsame₆ ▸ hfails), rfl⟩
  -- after the value nothing can fail
  rcases bind_error h with h | ⟨_, s₈, -, h⟩
  · cases h
  rcases bind_error h with h | ⟨call, s₉, -, h⟩
  · cases h
  rcases bind_error h with h | ⟨_, s₁₀, -, h⟩
  · cases h
  cases h

end Offends

/-- A rejected assignment is marked at what it is rejected for, or as a whole if this has no place
in a file. If the assignment has one, its diagnostic has one, whatever compiles its expressions
and in whatever state. -/
theorem compileAssignment_places (assignment : Assignment) :
    (∀ {ρ : Type} (s t : CompileState ρ) (failure : Failure), s.context.Reachable →
      compileAssignment Expr.compile assignment s = .error failure t →
      ∃ d place, failure = .rejected d ∧ assignment.Offends s.context d.cause place ∧
        d.span = if place.file = FileId.synthetic then assignment.span else place) ∧
    (assignment.span.file ≠ FileId.synthetic →
      ∀ {ρ : Type} (resolver : Resolver ρ) (s t : CompileState ρ) (d : Diagnostic),
        compileAssignment resolver assignment s = .error (.rejected d) t →
        d.span.file ≠ FileId.synthetic) := by
  constructor
  · intro ρ s t failure hs h
    cases failure with
    | fault f =>
        have hadds : OnlyAdds (fun _ => False)
            (compileAssignment Expr.compile assignment : CompileM ρ RuntimeCall) :=
          compileAppend_onlyAdds Expr.compile_onlyAdds _ _ _
        exact (hadds.fault s f t hs h).elim
    | rejected d =>
        obtain ⟨u, hlogged⟩ := transaction_rejected h
        obtain ⟨u, hlowered⟩ := onRejection_rejected hlogged
        obtain ⟨place, hoffends, hspan⟩ := lowerAppend_offends assignment hs hlowered
        refine ⟨d, place, rfl, hoffends, ?_⟩
        simpa [Span.orElse, Span.isSynthetic] using hspan
  · intro hspan ρ resolver s t d h
    exact compileAssignment_located resolver assignment hspan s d t h

/-- The index is an array literal without a place, around an undeclared variable that has one. -/
def ghostAssignment : Assignment :=
  { target :=
      { container := .property "obj" "items"
        indexes := [.array [.var "ghost" ⟨4, 9, ⟨0⟩⟩] .synthetic] }
    value := .var "obj" .synthetic
    span := ⟨0, 20, ⟨0⟩⟩ }

/-- Rejects every expression, and does not say where. -/
def unplacedResolver : Resolver Unit := fun _ =>
  CompileM.reject (.undeclaredVariable "ghost") .synthetic

theorem compileAssignment_places_ghost :
    (∃ t d place,
      compileAssignment Expr.compile ghostAssignment ⟨flaggedContext, [], ()⟩ =
        .error (.rejected d) t ∧
      ghostAssignment.Offends flaggedContext d.cause place ∧
      d.span = (if place.file = FileId.synthetic then ⟨0, 20, ⟨0⟩⟩ else place) ∧
      d = { cause := .undeclaredVariable "ghost", span := ⟨4, 9, ⟨0⟩⟩ }) ∧
    ∃ t d, compileAssignment unplacedResolver ghostAssignment ⟨flaggedContext, [], ()⟩ =
      .error (.rejected d) t ∧ d.span.file ≠ FileId.synthetic := by
  have hstart : flaggedContext.Reachable := .start _ _
  have hghost : rejection? (compileAssignment Expr.compile ghostAssignment)
      ⟨flaggedContext, [], ()⟩ =
        some { cause := .undeclaredVariable "ghost", span := ⟨4, 9, ⟨0⟩⟩ } := by decide +kernel
  have hunplaced : (rejection? (compileAssignment unplacedResolver ghostAssignment)
      ⟨flaggedContext, [], ()⟩).isSome = true := by decide +kernel
  constructor
  · rcases hrun : compileAssignment Expr.compile ghostAssignment ⟨flaggedContext, [], ()⟩ with
      ⟨call, t⟩ | ⟨failure, t⟩
    · simp [rejection?, hrun] at hghost
    · obtain ⟨d, place, rfl, hoffends, hspan⟩ :=
        (compileAssignment_places ghostAssignment).1 _ t failure hstart hrun
      exact ⟨t, d, place, rfl, hoffends, hspan, by simpa [rejection?, hrun] using hghost⟩
  · rcases hrun : compileAssignment unplacedResolver ghostAssignment ⟨flaggedContext, [], ()⟩ with
      ⟨call, t⟩ | ⟨d | fault, t⟩
    · simp [rejection?, hrun] at hunplaced
    · exact ⟨t, d, rfl, (compileAssignment_places ghostAssignment).2 (by decide) _ _ t d hrun⟩
    · simp [rejection?, hrun] at hunplaced

end AppendLowering
