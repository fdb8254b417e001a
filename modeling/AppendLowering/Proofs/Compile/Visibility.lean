import AppendLowering.Proofs.Compile.Temporaries

/-!
# What statements can see

A statement can mention the declared variables and, as far as they have been
declared by the time it is compiled, the temporaries. It is rejected if it
mentions any other name. A statement that mentions no name that a temporary
could take fares as if it were compiled alone.
-/

namespace AppendLowering

open CompileM SymbolTable

variable {ρ : Type} {c d : Context}

theorem Context.Settled.grows {name : String} (h : c.Settled name) (hgrows : c.Grows d)
    (hc : c.Reachable) : d.Settled name := by
  rw [Context.Settled, hgrows.lookup_eq hc h]
  exact h

theorem findSome?_congr_mem {α β : Type} {f g : α → Option β} {items : List α}
    (h : ∀ a ∈ items, f a = g a) : items.findSome? f = items.findSome? g := by
  induction items with
  | nil => rfl
  | cons a rest ih =>
      rw [List.forall_mem_cons] at h
      rw [findSome?_cons_or, findSome?_cons_or, h.1, ih h.2]

theorem Context.Grows.unreadableOf?_eq (h : c.Grows d) (hc : c.Reachable)
    {reads : List (String × Span)} (hsettled : ∀ read ∈ reads, c.Settled read.1) :
    d.unreadableOf? reads = c.unreadableOf? reads := by
  refine findSome?_congr_mem fun read hread => ?_
  rw [h.unreadable?_eq hc (hsettled read hread)]

/-- What an assignment is rejected for. -/
def Assignment.blamed? (c : Context) (assignment : Assignment) : Option Diagnostic :=
  assignment.target.blamed? c assignment.value assignment.span

theorem Assignment.settled_base {assignment : Assignment} {name : String}
    (h : ∀ name ∈ assignment.mentions, c.Settled name)
    (hbase : assignment.target.container.base? = some name) : c.Settled name :=
  h name (List.mem_append_left _ (by simp [hbase]))

theorem Assignment.settled_reads {assignment : Assignment} {expr : Expr}
    (h : ∀ name ∈ assignment.mentions, c.Settled name)
    (hexpr : expr ∈ assignment.target.indexes ++ [assignment.value]) : expr.Settled c :=
  fun read hread => h read.1 <| List.mem_append_right _ <|
    List.mem_flatMap.mpr ⟨expr, hexpr, List.mem_map_of_mem hread⟩

/-- Temporaries change nothing about an assignment that mentions settled names. -/
theorem Assignment.blamed?_eq {assignment : Assignment} (h : c.Grows d) (hc : c.Reachable)
    (hsettled : ∀ name ∈ assignment.mentions, c.Settled name) :
    assignment.blamed? d = assignment.blamed? c := by
  have hcontainer : assignment.target.container.fault? d assignment.span =
      assignment.target.container.fault? c assignment.span := by
    unfold Container.fault?
    cases hbase : assignment.target.container.base? with
    | none => rfl
    | some name => simp only [h.lookup_eq hc (settled_base hsettled hbase)]
  have hreads {expr : Expr} (hexpr : expr ∈ assignment.target.indexes ++ [assignment.value]) :
      d.unreadableOf? expr.reads = c.unreadableOf? expr.reads :=
    h.unreadableOf?_eq hc (settled_reads hsettled hexpr)
  have hindexes : assignment.target.indexes.findSome? (Expr.indexFault? d assignment.span) =
      assignment.target.indexes.findSome? (Expr.indexFault? c assignment.span) := by
    refine findSome?_congr_mem fun index hindex => ?_
    rw [Expr.indexFault?, hreads (List.mem_append_left _ hindex), Expr.indexFault?]
  have hencodings : assignment.target.indexes.findSome? (Expr.encodingFault? d assignment.span) =
      assignment.target.indexes.findSome? (Expr.encodingFault? c assignment.span) := by
    refine findSome?_congr_mem fun index hindex => ?_
    have hindexSettled := settled_reads hsettled (List.mem_append_left _ hindex)
    cases index with
    | var name span =>
        have hname : c.Settled name := hindexSettled (name, span) (by simp [Expr.reads])
        simp only [Expr.encodingFault?, h.lookup_eq hc hname]
    | literal _ _ => rfl
    | array _ _ => rfl
  rw [blamed?, Target.blamed?, hcontainer, hindexes, hencodings, hreads (by simp)]
  rfl

/-- What a statement is rejected for: the first of its assignments that is. -/
def Statement.blamed? (c : Context) (statement : Statement) : Option Diagnostic :=
  statement.assignments.findSome? (Assignment.blamed? c)

theorem compileAssignments_verdict {assignments : List Assignment} (hc : c.Reachable)
    (hsettled : ∀ assignment ∈ assignments, ∀ name ∈ assignment.mentions, c.Settled name)
    {s : CompileState ρ} (hs : c.Grows s.context) :
    Verdict (assignments.findSome? (Assignment.blamed? c))
      (compileAssignments Expr.compile assignments s) := by
  induction assignments generalizing s with
  | nil => exact ⟨[], s, rfl⟩
  | cons assignment rest ih =>
      rw [List.forall_mem_cons] at hsettled
      have hreads {expr : Expr} (hexpr : expr ∈ assignment.target.indexes ++ [assignment.value]) :
          expr.Settled s.context :=
        fun read hread =>
          (Assignment.settled_reads hsettled.1 hexpr read hread).grows hs hc
      have hfirst :
          Verdict (assignment.blamed? c) (compileAssignment Expr.compile assignment s) := by
        rw [← Assignment.blamed?_eq hs hc hsettled.1]
        exact compileAppend_verdict _ _ _ (hs.reachable hc)
          (fun index hindex => hreads (List.mem_append_left _ hindex)) (hreads (by simp))
      rw [findSome?_cons_or]
      refine hfirst.bind fun call t _ hrun => ?_
      have hadds := compileAppend_onlyAdds (Expr.compile_faultless (ρ := ρ)) assignment.target
        assignment.value assignment.span
      have hrest := ih hsettled.2 (hs.trans (hadds.grows_ok (hs.reachable hc) hrun))
      rw [← Option.or_none (o := rest.findSome? _)]
      exact hrest.bind fun calls u _ _ => ⟨call :: calls, u, rfl⟩

/-- A statement that mentions settled names is judged by the context that all others have grown
out of. -/
theorem compileStatement_verdict {statement : Statement} (hc : c.Reachable)
    (hsettled : ∀ name ∈ statement.mentions, c.Settled name) {s : CompileState ρ}
    (hs : c.Grows s.context) :
    Verdict (statement.blamed? c) (compileStatement Expr.compile statement s) := by
  have hassignments : ∀ assignment ∈ statement.assignments, ∀ name ∈ assignment.mentions,
      c.Settled name := fun assignment hassignment name hname =>
    hsettled name (List.mem_flatMap.mpr ⟨assignment, hassignment, hname⟩)
  exact (compileAssignments_verdict hc hassignments hs).transaction
    (compileAssignments_onlyAdds Expr.compile_faultless statement.assignments) (hs.reachable hc)

theorem CompileM.Verdict.rejection?_eq {α : Type} {action : CompileM ρ α} {s : CompileState ρ}
    {blamed : Option Diagnostic} (h : Verdict blamed (action s)) :
    rejection? action s = blamed := by
  cases blamed with
  | none =>
      obtain ⟨a, t, hrun⟩ := h
      simp only [rejection?, hrun]
  | some d =>
      obtain ⟨t, hrun⟩ := h
      simp only [rejection?, hrun]

namespace Run

variable {verdicts before after : List (Statement × Option Diagnostic)} {start : Context}

theorem split (run : Run ρ c (before ++ after) d) :
    ∃ e, Run ρ c before e ∧ Run ρ e after d := by
  induction before generalizing c with
  | nil => exact ⟨c, .done, run⟩
  | cons verdict rest ih =>
      cases run with
      | accept h tail =>
          obtain ⟨e, hrest, hafter⟩ := ih tail
          exact ⟨e, .accept h hrest, hafter⟩
      | reject h tail =>
          obtain ⟨e, hrest, hafter⟩ := ih tail
          exact ⟨e, .reject h hrest, hafter⟩

/-- The verdict on a statement that mentions settled names does not depend on its turn. -/
theorem verdict_eq (run : Run ρ c verdicts d) (hstart : start.Reachable) (hc : start.Grows c) :
    ∀ verdict ∈ verdicts, (∀ name ∈ verdict.1.mentions, start.Settled name) →
      verdict.2 = verdict.1.blamed? start := by
  induction run with
  | done => simp
  | @accept statement rest c' calls s t h tail ih =>
      have hadds := compileStatement_onlyAdds (Expr.compile_faultless (ρ := ρ)) statement
      refine List.forall_mem_cons.mpr ⟨fun hsettled => ?_, ih (hc.trans ?_)⟩
      · rw [← (compileStatement_verdict hstart hsettled hc).rejection?_eq]
        simp only [rejection?, h]
      · exact hadds.grows_ok (hc.reachable hstart) h
  | @reject statement rest c' d s t h tail ih =>
      have hsame := (compileStatement_undoes Expr.compile_additive (hc.reachable hstart)
        statement).restored d t h
      refine List.forall_mem_cons.mpr ⟨fun hsettled => ?_, ih (hsame ▸ hc)⟩
      rw [← (compileStatement_verdict hstart hsettled hc).rejection?_eq]
      simp only [rejection?, h]

/-- Whatever accepted statements mention is bound in the end. -/
theorem bound (run : Run ρ c verdicts d) (hc : c.Reachable) {statement : Statement}
    (haccepted : statement ∈ accepted verdicts) :
    ∀ name ∈ statement.mentions, d.symbols.contains name = true := by
  obtain ⟨lines, hlines⟩ := run.assigns hc
  intro name hname
  obtain ⟨assignment, hassignment, hmention⟩ := List.mem_flatMap.mp hname
  exact hlines.bound hc assignment
    (List.mem_flatMap.mpr ⟨statement, haccepted, hassignment⟩) name hmention

end Run

/-- A statement that mentions a name without a declaration is rejected, unless the name is that of
a temporary of this statement or of one before it. If its names are declared, or cannot be names
of temporaries, then the statement is judged as if it were compiled alone. -/
theorem compileStatements_visible (config : Config) (vs : List Variable)
    (statements : List Statement) (log : Log) (own : ρ) :
    ∃ verdicts t,
      verdicts.map Prod.fst = statements ∧
      Run ρ (.ofSymbols config (.ofList vs)) verdicts t.context ∧
      compileStatements statements ⟨.ofSymbols config (.ofList vs), log, own⟩ =
        .ok (verdicts.filterMap Prod.snd) t ∧
      (∀ before statement verdict after, verdicts = before ++ (statement, verdict) :: after →
        ∀ name ∈ statement.mentions, name ∉ vs.map Variable.name →
          verdict ≠ none ∨
            ∃ temporaries d,
              Run ρ (.ofSymbols config (.ofList vs)) (before ++ [(statement, verdict)]) d ∧
              Numbered vs temporaries d.symbols ∧
              name ∈ temporaries.map Variable.name) ∧
      (∀ verdict ∈ verdicts,
        (∀ name ∈ verdict.1.mentions,
          name ∈ vs.map Variable.name ∨ ∀ number, name ≠ temporaryName number) →
        verdict.2 = rejection? (compileStatement Expr.compile verdict.1)
          ⟨.ofSymbols config (.ofList vs), log, own⟩) := by
  have hstart : (Context.ofSymbols config (.ofList vs)).Reachable := .start config vs
  obtain ⟨verdicts, t, hmap, run, hcompiled⟩ :=
    compileStatements_run statements ⟨.ofSymbols config (.ofList vs), log, own⟩ hstart
  refine ⟨verdicts, t, hmap, run, hcompiled, ?_, ?_⟩
  · intro before statement verdict after hverdicts name hname hundeclared
    cases verdict with
    | some diagnostic => exact .inl (by simp)
    | none =>
        right
        rw [hverdicts, ← List.singleton_append, ← List.append_assoc] at run
        obtain ⟨d, hbefore, -⟩ := run.split
        obtain ⟨lines, hlines⟩ := hbefore.assigns hstart
        obtain ⟨temporaries, hnumbered, -⟩ := hlines.emits.numbered hstart (.ofList vs)
        rw [List.nil_append] at hnumbered
        have haccepted : statement ∈ accepted (before ++ [(statement, none)]) := by
          simp [accepted]
        have hbound := hbefore.bound hstart haccepted name hname
        rw [hnumbered.contains, List.map_append, List.mem_append] at hbound
        exact ⟨temporaries, d, hbefore, hnumbered, hbound.resolve_left hundeclared⟩
  · intro verdict hverdict hnames
    have hsettled : ∀ name ∈ verdict.1.mentions,
        (Context.ofSymbols config (.ofList vs)).Settled name := by
      intro name hname
      rcases hnames name hname with hdeclared | hother
      · obtain ⟨v, hv, rfl⟩ := List.mem_map.mp hdeclared
        obtain ⟨w, -, -, hw⟩ := lookup_ofList hv
        exact .inl (by simp [Context.ofSymbols, hw])
      · exact .inr hother
    rw [run.verdict_eq hstart .refl verdict hverdict hsettled]
    exact (compileStatement_verdict hstart hsettled .refl).rejection?_eq.symm

/-- The second statement mentions a name that is neither declared nor that of a temporary. -/
def ghostStatements : List Statement :=
  [appendToObj (.literal (.int 1) .synthetic),
    appendToObj (.array [.var "ghost" .synthetic] .synthetic)]

theorem compileStatements_visible_ghost :
    ∃ (verdicts : List (Statement × Option Diagnostic)) (t : CompileState Unit),
      verdicts.map Prod.fst = ghostStatements ∧
      compileStatements ghostStatements ⟨receiverContext, [], ()⟩ =
        .ok (verdicts.filterMap Prod.snd) t ∧
      ∀ verdict ∈ verdicts, verdict.2 =
        rejection? (compileStatement Expr.compile verdict.1) ⟨receiverContext, [], ()⟩ := by
  have hghost (number : Nat) : "ghost" ≠ temporaryName number := by
    intro h
    have hhead := congrArg (fun name => name.toList.head?) h
    simp [temporaryName] at hhead
  have hmentions : ∀ statement ∈ ghostStatements, ∀ name ∈ statement.mentions,
      "obj" = name ∨ name = "ghost" := by
    simp [ghostStatements, appendToObj, Statement.mentions, Assignment.mentions, Container.base?,
      Expr.reads, Expr.readsOfAll]
  obtain ⟨verdicts, t, hmap, -, hcompiled, -, halone⟩ :=
    compileStatements_visible receiverContext.config
      [.declare "obj" .dynamic .receiver .synthetic] ghostStatements [] ()
  refine ⟨verdicts, t, hmap, hcompiled, fun verdict hverdict => halone verdict hverdict ?_⟩
  intro name hname
  rcases hmentions verdict.1 (hmap ▸ List.mem_map_of_mem hverdict) name hname with rfl | rfl
  · exact .inl (by decide)
  · exact .inr hghost

/-- The name of a temporary passes for a variable, in a later statement and inside the array
literal that the temporary holds. Without what declares the temporary it does not. -/
theorem compileStatements_sees_temporary :
    receiverContext.symbols.lookup "_0" = .ok none ∧
    value? (compileStatements [appendToObj (.literal (.int 1) .synthetic),
      appendToObj (.var "_0" .synthetic)]) ⟨receiverContext, [], ()⟩ = some [] ∧
    value? (compileStatements [appendToObj (.array [.var "_0" .synthetic] .synthetic)])
      ⟨receiverContext, [], ()⟩ = some [] ∧
    (value? (compileStatements [appendToObj (.var "_0" .synthetic)])
      ⟨receiverContext, [], ()⟩).map List.length = some 1 :=
  ⟨by decide +kernel, by decide +kernel, by decide +kernel, by decide +kernel⟩

end AppendLowering
