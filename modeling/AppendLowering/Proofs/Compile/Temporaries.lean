import AppendLowering.Proofs.Compile.Names
import AppendLowering.Proofs.Symbol.Numbering

/-!
# The temporaries of compiled statements

Over a table of declared variables, the statements that are accepted leave one
temporary for each array literal in an assigned value, and one for each
assigned value that is not held by a runtime value yet. The temporaries take
the free numbers in order, and each of them is initialized once, in that order.
-/

namespace AppendLowering

open SymbolTable (Numbered)
open Text (Unbroken)

variable {ρ : Type} {vs temporaries : List Variable}

/-- Whatever is emitted initializes the temporaries that it adds, one after the other. -/
theorem Context.Emits.numbered {c d : Context} {lines : List Line} (h : c.Emits lines d)
    (hc : c.Reachable) (hnumbered : Numbered vs temporaries c.symbols) :
    ∃ added, Numbered vs (temporaries ++ added) d.symbols ∧
      lines.filterMap Line.initialized? = added.map Variable.name := by
  induction h with
  | refl => exact ⟨[], by simpa using hnumbered, rfl⟩
  | @temporary lines d h span ih =>
      obtain ⟨added, hadded, hlines⟩ := ih
      have hwell := (h.grows.reachable hc).wellFormed
      refine ⟨added ++ [(d.symbols.freshTemporary .dynamic span).1], ?_, ?_⟩
      · rw [← List.append_assoc]
        exact hadded.freshTemporary hwell span
      · rw [List.filterMap_append, List.map_append, hlines]
        rfl
  | line _ hline ih =>
      obtain ⟨added, hadded, hlines⟩ := ih
      exact ⟨added, hadded, by simp [hlines, hline]⟩
  | header _ _ ih => exact ih

mutual

/-- The number of array literals in an expression. -/
def Expr.arrays : Expr → Nat
  | .literal .. => 0
  | .var .. => 0
  | .array items _ => 1 + Expr.arraysOfAll items

def Expr.arraysOfAll : List Expr → Nat
  | [] => 0
  | item :: rest => item.arrays + Expr.arraysOfAll rest

end

mutual

theorem Expr.Compiles.length_initialized (expr : Expr) {c d : Context} {value : Resolved}
    {lines : List Line} (h : expr.Compiles c value lines d) :
    (lines.filterMap Line.initialized?).length = expr.arrays := by
  cases expr with
  | literal literal span =>
      cases h
      rfl
  | var name span =>
      cases h
      rfl
  | array items span =>
      cases h with
      | array _ hitems =>
          simp [List.filterMap_cons, Expr.arrays, hitems.length_initialized items, Nat.add_comm]

theorem Expr.CompilesAll.length_initialized (items : List Expr) {holder : String} {c d : Context}
    {lines : List Line} (h : Expr.CompilesAll items holder c lines d) :
    (lines.filterMap Line.initialized?).length = Expr.arraysOfAll items := by
  cases items with
  | nil =>
      cases h
      rfl
  | cons item rest =>
      cases h with
      | cons hitem _ hrest =>
          simp [List.filterMap_cons, Expr.arraysOfAll, hitem.length_initialized item,
            hrest.length_initialized rest]

end

/-- Whether variables of the type are not runtime values. -/
def DataType.isScalar (type : DataType) : Bool :=
  type ∈ [.int, .uint, .long, .ulong, .char, .uchar, .double, .bool, .null]

theorem Variable.isScalar_iff (v : Variable) :
    v.type.isScalar = true ↔ ∃ immediate, v.operand = .immediate immediate := by
  cases htype : v.type <;> simp [Variable.operand, htype, DataType.isScalar]

/-- Whether an assigned value is put into a temporary as a whole: literals are, and variables that
are not runtime values. -/
def Expr.isBoxed (symbols : SymbolTable) : Expr → Bool
  | .literal .. => true
  | .var name _ =>
      match symbols.lookup name with
      | .ok (some v) => v.type.isScalar
      | _ => false
  | .array .. => false

/-- A value is boxed if the declared variables call for it: the other ones hold runtime values. -/
theorem Expr.Compiles.isBoxed_iff {value : Expr} {c d : Context} {resolved : Resolved}
    {lines : List Line} {operand : Operand} (h : value.Compiles c resolved lines d)
    (hc : c.symbols.WellFormed) (hnumbered : Numbered vs temporaries c.symbols)
    (hoperand : resolved.operand d = .ok operand) :
    value.isBoxed (.ofList vs) = true ↔ ∃ immediate, operand = .immediate immediate := by
  cases h with
  | literal literal span => cases literal <;> cases hoperand <;> simp [Expr.isBoxed]
  | @var name span _ v hread =>
      have hread' : c.readVariable v.name span = .ok v := by
        rwa [Context.name_of_readVariable hc hread]
      obtain rfl : v.operand = operand := by
        simpa [Resolved.operand, hread', Except.map] using hoperand
      rw [← v.isScalar_iff]
      rcases hnumbered.lookup_cases hc (Context.lookup_of_readVariable hread).1 with
        ⟨-, hdeclared⟩ | ⟨hfree, htemporary, -⟩
      · simp [Expr.isBoxed, hdeclared]
      · have habsent := SymbolTable.lookup_ofList_eq_none hfree
        have hdynamic := (hnumbered.temporary v htemporary).1
        simp [Expr.isBoxed, habsent, hdynamic, DataType.isScalar]
  | array _ _ =>
      cases hoperand
      simp [Expr.isBoxed]

theorem Expr.Holds.length_initialized {value : Expr} {c d : Context} {holder : String}
    {lines : List Line} (h : value.Holds c holder lines d) (hc : c.symbols.WellFormed)
    (hnumbered : Numbered vs temporaries c.symbols) :
    (lines.filterMap Line.initialized?).length =
      value.arrays + [value].countP (Expr.isBoxed (.ofList vs)) := by
  cases h with
  | held hvalue hoperand =>
      have hboxed := hvalue.isBoxed_iff hc hnumbered hoperand
      simpa [hvalue.length_initialized value] using hboxed
  | boxed hvalue hoperand _ =>
      have hboxed := hvalue.isBoxed_iff hc hnumbered hoperand
      simp [List.filterMap_cons, hvalue.length_initialized value, hboxed]

/-- Accepted assignments initialize one temporary for each array literal in their values, and one
for each value that is boxed. -/
theorem Assigns.length_initialized {assignments : List Assignment} {c d : Context}
    {lines : List Line} (h : Assigns assignments c lines d) (hc : c.Reachable)
    (hnumbered : Numbered vs temporaries c.symbols) :
    (lines.filterMap Line.initialized?).length =
      Expr.arraysOfAll (assignments.map Assignment.value) +
        (assignments.map Assignment.value).countP (Expr.isBoxed (.ofList vs)) := by
  induction h generalizing temporaries with
  | nil c => rfl
  | @cons assignment rest c d e call lines lines' haccepted _ _ ih =>
      have hvalue := haccepted.value.length_initialized hc.wellFormed hnumbered
      have hemits := haccepted.value.emits.trans (.writeCall d call)
      obtain ⟨added, hadded, -⟩ := hemits.numbered hc hnumbered
      have hrest := ih (hemits.grows.reachable hc) hadded
      rw [List.filterMap_append, List.length_append, hvalue]
      simp only [List.filterMap_cons, Line.initialized?_call, hrest, List.map_cons,
        Expr.arraysOfAll, List.countP_cons, List.countP_nil]
      omega

/-- Temporaries have no line feeds in their names, so a table has none if its declared variables
have none. -/
theorem SymbolTable.Numbered.unbroken {table : SymbolTable} (h : Numbered vs temporaries table)
    (hvs : ∀ v ∈ vs, Unbroken v.name) : ∀ name, table.contains name = true → Unbroken name := by
  intro name hname
  rw [h.contains, List.map_append, List.mem_append, h.names] at hname
  rcases hname with hdeclared | htemporary
  · obtain ⟨v, hv, rfl⟩ := List.mem_map.mp hdeclared
    exact hvs v hv
  · obtain ⟨number, -, rfl⟩ := List.mem_map.mp htemporary
    exact unbroken_temporaryName number

/-- The values that statements assign, in order. -/
def assignedValues (statements : List Statement) : List Expr :=
  (statements.flatMap Statement.assignments).map Assignment.value

/-- Statements that are compiled over declared variables leave these as they are and add the
temporaries of the accepted ones: as many as their values call for, with the free numbers in
order. In the emitted code each temporary is initialized by one line, in the same order. -/
theorem compileStatements_temporaries (config : Config) (vs : List Variable)
    (statements : List Statement) (log : Log) (own : ρ) :
    ∃ verdicts temporaries t,
      verdicts.map Prod.fst = statements ∧
      Run ρ (.ofSymbols config (.ofList vs)) verdicts t.context ∧
      compileStatements statements ⟨.ofSymbols config (.ofList vs), log, own⟩ =
        .ok (verdicts.filterMap Prod.snd) t ∧
      Numbered vs temporaries t.context.symbols ∧
      (∀ v ∈ vs, ∃ w ∈ vs, w.name = v.name ∧
        (SymbolTable.ofList vs).lookup v.name = .ok (some w) ∧
        t.context.symbols.lookup v.name = .ok (some w)) ∧
      temporaries.length =
        Expr.arraysOfAll (assignedValues (accepted verdicts)) +
          (assignedValues (accepted verdicts)).countP (Expr.isBoxed (.ofList vs)) ∧
      ((∀ v ∈ vs, Unbroken v.name) →
        (∀ statement ∈ statements, ∀ assignment ∈ statement.assignments,
          Unbroken assignment.target.container.name) →
        (Text.linesOf t.context.code.text).filter
            (fun line => "ZEPHIR_INIT_VAR(".toList.isPrefixOf line.toList) =
          temporaries.map fun v => "ZEPHIR_INIT_VAR(" ++ v.name ++ ");") := by
  have hstart : (Context.ofSymbols config (.ofList vs)).Reachable := .start config vs
  obtain ⟨verdicts, t, hmap, run, hcompiled⟩ :=
    compileStatements_run statements ⟨.ofSymbols config (.ofList vs), log, own⟩ hstart
  obtain ⟨lines, hlines⟩ := run.assigns hstart
  have hnone : Numbered vs [] (Context.ofSymbols config (.ofList vs)).symbols := .ofList vs
  obtain ⟨temporaries, hnumbered, hnames⟩ := hlines.emits.numbered hstart hnone
  rw [List.nil_append] at hnumbered
  refine ⟨verdicts, temporaries, t, hmap, run, hcompiled, hnumbered, ?_, ?_, ?_⟩
  · intro v hv
    obtain ⟨w, hmem, hname, hw⟩ := SymbolTable.lookup_ofList hv
    exact ⟨w, hmem, hname, hw, (hnumbered.lookup v hv).trans hw⟩
  · have hcount := hlines.length_initialized hstart hnone
    rwa [hnames, List.length_map] at hcount
  · intro hvs hcontainers
    have haccepted : ∀ assignment ∈ (accepted verdicts).flatMap Statement.assignments,
        Unbroken assignment.target.container.name := by
      intro assignment hmem
      obtain ⟨statement, hstatement, hassignment⟩ := List.mem_flatMap.mp hmem
      exact hcontainers statement (hmap ▸ mem_of_accepted hstatement) assignment hassignment
    have hcode : t.context.code.text = Line.code lines := by
      rw [hlines.emits.code]
      exact String.empty_append
    have hunbroken := hlines.unbroken hstart (hnumbered.unbroken hvs) haccepted
    rw [hcode, Line.filter_linesOf_code hunbroken, hnames, List.map_map]
    rfl

/-- Variables two of which have the names of temporaries. -/
def clashingVariables : List Variable :=
  [.declare "obj" .dynamic .parameter .synthetic, .declare "_0" .int .parameter .synthetic,
    .declare "_2" .array .parameter .synthetic]

/-- The first statement is rejected, with temporaries of its own. -/
def clashingStatements : List Statement :=
  [appendToObj (.array [.array [.var "ghost" .synthetic] .synthetic] .synthetic),
    appendToObj (.literal .null .synthetic),
    appendToObj (.array [.array [] .synthetic, .var "_0" .synthetic] .synthetic),
    appendToObj (.var "_0" .synthetic), appendToObj (.var "_2" .synthetic)]

theorem compileStatements_temporaries_clashing :
    ∃ (verdicts : List (Statement × Option Diagnostic)) (temporaries : List Variable)
        (t : CompileState Unit),
      verdicts.map Prod.fst = clashingStatements ∧
      temporaries.map Variable.name = ["_1", "_3", "_4", "_5"] ∧
      temporaries.length =
        Expr.arraysOfAll (assignedValues (accepted verdicts)) +
          (assignedValues (accepted verdicts)).countP (Expr.isBoxed (.ofList clashingVariables)) ∧
      (Text.linesOf t.context.code.text).filter
          (fun line => "ZEPHIR_INIT_VAR(".toList.isPrefixOf line.toList) =
        temporaries.map fun v => "ZEPHIR_INIT_VAR(" ++ v.name ++ ");" := by
  have hstore :
      (CompileM.contextAfter (compileStatements clashingStatements)
        ⟨.ofSymbols receiverContext.config (.ofList clashingVariables), [], ()⟩
        ).symbols.declared.entries.map Variable.name =
      clashingVariables.map Variable.name ++ ["_1", "_3", "_4", "_5"] := by
    decide +kernel
  obtain ⟨verdicts, temporaries, t, hmap, -, hcompiled, hnumbered, -, hlength, hlines⟩ :=
    compileStatements_temporaries receiverContext.config clashingVariables clashingStatements [] ()
  simp only [CompileM.contextAfter, hcompiled, hnumbered.declared, List.map_append,
    List.append_cancel_left_eq] at hstore
  refine ⟨verdicts, temporaries, t, hmap, hstore, hlength, hlines ?_ ?_⟩
  · simp only [clashingVariables, List.forall_mem_cons]
    exact ⟨by decide, by decide, by decide, by simp⟩
  · have hobj : Unbroken "obj" := by decide
    simpa [clashingStatements, appendToObj, Container.name] using hobj

end AppendLowering
