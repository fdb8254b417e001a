import AppendLowering.Proofs.Compile.Independence
import AppendLowering.Proofs.Compile.Results

/-!
# The code that is emitted

What a successful compilation emits, and the context in which it ends, as
relations that follow the tree of the expression. Everything that the lowering
emits comes in two kinds of steps: a fresh temporary with the line that
initializes it, and a line that initializes nothing.
-/

namespace AppendLowering

namespace CompileM

variable {ρ α β : Type} {action : CompileM ρ α} {s t u : CompileState ρ} {a : α} {b : β}

/-- A sequence that succeeds has succeeded in both of its parts. -/
theorem bind_ok {next : α → CompileM ρ β} (h : (action >>= next) s = .ok b u) :
    ∃ a t, action s = .ok a t ∧ next a t = .ok b u := by
  simp only [Bind.bind, EStateM.bind] at h
  cases hrun : action s with
  | ok a t => exact ⟨a, t, rfl, by simpa only [hrun] using h⟩
  | error failure t => simp [hrun] at h

theorem reading_ok {query : Context → Except Failure α}
    (h : (reading query : CompileM ρ α) s = .ok a t) : query s.context = .ok a ∧ s = t := by
  unfold reading at h
  split at h
  · next b hquery =>
      cases h
      exact ⟨hquery, rfl⟩
  · cases h

theorem updating_ok {change : Context → α × Context}
    (h : (updating change : CompileM ρ α) s = .ok a t) : change s.context = (a, t.context) := by
  cases h
  rfl

theorem record_ok {entry : LogEntry} {done : Unit}
    (h : (record entry : CompileM ρ Unit) s = .ok done t) : t.context = s.context := by
  cases h
  rfl

theorem withSpan_ok {span : Span} (h : withSpan span action s = .ok a t) : action s = .ok a t := by
  unfold withSpan at h
  rcases hrun : action s with ⟨b, u⟩ | ⟨d | f, u⟩ <;> rw [hrun] at h <;> cases h
  rfl

theorem onRejection_ok {entry : Diagnostic → LogEntry} (h : onRejection entry action s = .ok a t) :
    action s = .ok a t := by
  unfold onRejection at h
  rcases hrun : action s with ⟨b, u⟩ | ⟨d | f, u⟩ <;> rw [hrun] at h <;> cases h
  rfl

theorem transaction_ok (h : transaction action s = .ok a t) : action s = .ok a t := by
  unfold transaction at h
  rcases hrun : action s with ⟨b, u⟩ | ⟨d | f, u⟩ <;> simp only [hrun] at h
  · exact h
  · split at h <;> cases h
  · cases h

end CompileM

/-- The temporary that a line initializes. -/
def Line.initialized? : Line → Option String
  | .fresh holder => some holder
  | _ => none

@[simp] theorem Line.initialized?_fresh (holder : String) :
    (Line.fresh holder).initialized? = some holder := rfl

@[simp] theorem Line.initialized?_initArray (holder : String) (size : Nat) :
    (Line.initArray holder size).initialized? = none := rfl

@[simp] theorem Line.initialized?_store (holder : String) (value : Immediate) :
    (Line.store holder value).initialized? = none := rfl

@[simp] theorem Line.initialized?_push (holder : String) (item : Operand) :
    (Line.push holder item).initialized? = none := rfl

@[simp] theorem Line.initialized?_call (call : RuntimeCall) :
    (Line.call call).initialized? = none := rfl

/-- The code of lines. -/
def Line.code (lines : List Line) : String :=
  String.join (lines.map fun line => line.render ++ "\n")

namespace Context

/-- `c` becomes the other context by emitting the lines. Only a fresh temporary is initialized. -/
inductive Emits (c : Context) : List Line → Context → Prop
  | refl : Emits c [] c
  | temporary {lines d} (h : Emits c lines d) (span : Span) :
      Emits c (lines ++ [.fresh (d.initTemporary span).1]) (d.initTemporary span).2
  | line {lines d} (h : Emits c lines d) {line : Line} (hline : line.initialized? = none) :
      Emits c (lines ++ [line]) (d.write line)
  | header {lines d} (h : Emits c lines d) (header : Header) :
      Emits c lines { d with headers := d.headers.add header }

namespace Emits

variable {c d e : Context} {lines lines' : List Line}

theorem trans (first : c.Emits lines d) (second : d.Emits lines' e) :
    c.Emits (lines ++ lines') e := by
  induction second with
  | refl => rwa [List.append_nil]
  | temporary _ span ih => exact List.append_assoc .. ▸ ih.temporary span
  | line _ hline ih => exact List.append_assoc .. ▸ ih.line hline
  | header _ header ih => exact ih.header header

theorem initTemporary {span : Span} {holder : String} (h : c.initTemporary span = (holder, d)) :
    c.Emits [.fresh holder] d := by
  simpa only [h, List.nil_append] using (refl (c := c)).temporary span

theorem write (c : Context) {line : Line} (hline : line.initialized? = none) :
    c.Emits [line] (c.write line) :=
  refl.line hline

theorem writeCall (c : Context) (call : RuntimeCall) : c.Emits [.call call] (c.writeCall call) :=
  (refl.header call.container.header).line rfl

theorem grows (h : c.Emits lines d) : c.Grows d := by
  induction h with
  | refl => exact .refl
  | temporary _ span ih => exact ih.trans (.initTemporary _ span)
  | line _ _ ih => exact ih.trans (.write _ _)
  | header _ header ih => exact ih.header header

theorem code (h : c.Emits lines d) : d.code.text = c.code.text ++ Line.code lines := by
  induction h with
  | refl => simp [Line.code]
  | temporary _ span ih =>
      simp [Context.initTemporary, Context.write, CodeBuffer.writeLine, ih, Line.code,
        String.append_assoc]
  | line _ _ ih =>
      simp [Context.write, CodeBuffer.writeLine, ih, Line.code, String.append_assoc]
  | header _ _ ih => exact ih

end Emits

end Context

mutual

/-- Compiling the expression gives the value and emits the lines, from the first context to the
second. -/
inductive Expr.Compiles : Expr → Context → Resolved → List Line → Context → Prop
  | literal (value : Literal) (span : Span) (c : Context) :
      Compiles (.literal value span) c ⟨value.resolve.1, value.resolve.2, span⟩ [] c
  | var {name : String} {span : Span} {c : Context} {v : Variable}
      (h : c.readVariable name span = .ok v) :
      Compiles (.var name span) c ⟨.var, v.name, span⟩ [] c
  | array {items : List Expr} {span : Span} {c start d : Context} {holder : String}
      {lines : List Line} (hstart : c.initTemporary span = (holder, start))
      (hitems : Expr.CompilesAll items holder (start.write (.initArray holder items.length))
        lines d) :
      Compiles (.array items span) c ⟨.array, holder, span⟩
        (.fresh holder :: .initArray holder items.length :: lines) d

/-- Compiling the items and appending each of them to the array in the holder emits the lines. -/
inductive Expr.CompilesAll : List Expr → String → Context → List Line → Context → Prop
  | nil (holder : String) (c : Context) : CompilesAll [] holder c [] c
  | cons {item : Expr} {rest : List Expr} {holder : String} {c d e : Context} {value : Resolved}
      {operand : Operand} {lines lines' : List Line}
      (hitem : Expr.Compiles item c value lines d) (hoperand : value.operand d = .ok operand)
      (hrest : Expr.CompilesAll rest holder (d.write (.push holder operand)) lines' e) :
      CompilesAll (item :: rest) holder c (lines ++ .push holder operand :: lines') e

end

/-- Compiling the value puts it into the holder and emits the lines. -/
inductive Expr.Holds (value : Expr) (c : Context) : String → List Line → Context → Prop
  | held {resolved : Resolved} {lines : List Line} {d : Context} {name : String}
      (hvalue : value.Compiles c resolved lines d)
      (hoperand : resolved.operand d = .ok (.held name)) : Holds value c name lines d
  | boxed {resolved : Resolved} {lines : List Line} {d start : Context} {immediate : Immediate}
      {holder : String} (hvalue : value.Compiles c resolved lines d)
      (hoperand : resolved.operand d = .ok (.immediate immediate))
      (hstart : d.initTemporary resolved.span = (holder, start)) :
      Holds value c holder (lines ++ [.fresh holder, .store holder immediate])
        (start.write (.store holder immediate))

/-- The append is accepted in `c`: its variables are there, its indexes emit nothing, and the
value is put into a holder. -/
structure Target.Accepted (target : Target) (value : Expr) (c : Context) (holder : String)
    (lines : List Line) (d : Context) : Prop where
  base : ∀ name, target.container.base? = some name → c.symbols.contains name = true
  indexes : ∀ index ∈ target.indexes, ∃ resolved, index.Compiles c resolved [] c
  value : value.Holds c holder lines d

open CompileM

variable {ρ : Type}

mutual

theorem Expr.compiles_of_ok (expr : Expr) {s t : CompileState ρ} {value : Resolved}
    (h : expr.compile s = .ok value t) :
    ∃ lines, expr.Compiles s.context value lines t.context := by
  cases expr with
  | literal literal span =>
      rw [Expr.compile] at h
      obtain ⟨_, u, htrace, hvalue⟩ := bind_ok h
      cases hvalue
      rw [record_ok htrace]
      exact ⟨[], .literal literal span _⟩
  | var name span =>
      rw [Expr.compile] at h
      obtain ⟨v, u, hread, h⟩ := bind_ok h
      obtain ⟨hfound, rfl⟩ := reading_ok hread
      obtain ⟨_, u, htrace, hvalue⟩ := bind_ok h
      cases hvalue
      rw [record_ok htrace]
      exact ⟨[], .var hfound⟩
  | array items span =>
      rw [Expr.compile] at h
      obtain ⟨holder, s₁, hholder, h⟩ := bind_ok h
      obtain ⟨_, s₂, hinit, h⟩ := bind_ok h
      obtain ⟨_, s₃, hitems, h⟩ := bind_ok h
      obtain ⟨_, s₄, htrace, hvalue⟩ := bind_ok h
      cases hvalue
      obtain ⟨lines, hlines⟩ := Expr.compilesAll_of_ok holder items hitems
      have hstart : s₁.context.write (.initArray holder items.length) = s₂.context :=
        congrArg Prod.snd (updating_ok hinit)
      rw [← hstart, ← record_ok htrace] at hlines
      exact ⟨_, .array (updating_ok hholder) hlines⟩

theorem Expr.compilesAll_of_ok (holder : String) (items : List Expr) {s t : CompileState ρ}
    {done : Unit} (h : Expr.compileItems holder items s = .ok done t) :
    ∃ lines, Expr.CompilesAll items holder s.context lines t.context := by
  cases items with
  | nil =>
      rw [Expr.compileItems] at h
      cases h
      exact ⟨[], .nil holder _⟩
  | cons item rest =>
      rw [Expr.compileItems] at h
      obtain ⟨value, s₁, hitem, h⟩ := bind_ok h
      obtain ⟨operand, s₂, hread, h⟩ := bind_ok h
      obtain ⟨_, s₃, hpush, hrest⟩ := bind_ok h
      obtain ⟨hoperand, rfl⟩ := reading_ok hread
      obtain ⟨lines, hlines⟩ := Expr.compiles_of_ok item hitem
      obtain ⟨lines', hlines'⟩ := Expr.compilesAll_of_ok holder rest hrest
      have hstart : s₁.context.write (.push holder operand) = s₃.context :=
        congrArg Prod.snd (updating_ok hpush)
      exact ⟨_, .cons hlines hoperand (hstart ▸ hlines')⟩

end

theorem holds_of_ok {value : Expr} {s t : CompileState ρ} {holder : String}
    (h : holdValue Expr.compile value s = .ok holder t) :
    ∃ lines, value.Holds s.context holder lines t.context := by
  obtain ⟨resolved, s₁, hvalue, h⟩ := bind_ok h
  obtain ⟨operand, s₂, hread, h⟩ := bind_ok h
  obtain ⟨hoperand, rfl⟩ := reading_ok hread
  obtain ⟨lines, hlines⟩ := value.compiles_of_ok hvalue
  cases operand with
  | held name =>
      cases h
      exact ⟨lines, .held hlines hoperand⟩
  | immediate immediate =>
      obtain ⟨fresh, s₃, hstart, h⟩ := bind_ok h
      -- boxing a string is not logged, and logging does not touch the context
      obtain ⟨s₄, hlog, h⟩ : ∃ s₄ : CompileState ρ, s₄.context = s₃.context ∧
          ((CompileM.write (.store fresh immediate) : CompileM ρ Unit) >>= fun _ => pure fresh) s₄ =
            .ok holder t := by
        split at h
        · exact ⟨s₃, rfl, h⟩
        · obtain ⟨_, s₄, hrecord, h⟩ := bind_ok h
          exact ⟨s₄, record_ok hrecord, h⟩
      obtain ⟨_, s₅, hstore, hend⟩ := bind_ok h
      cases hend
      have hfinal : s₃.context.write (.store holder immediate) = t.context :=
        hlog ▸ congrArg Prod.snd (updating_ok hstore)
      rw [← hfinal]
      exact ⟨_, .boxed hlines hoperand (updating_ok hstart)⟩

mutual

theorem Expr.Compiles.emits (expr : Expr) {c d : Context} {value : Resolved} {lines : List Line}
    (h : expr.Compiles c value lines d) : c.Emits lines d := by
  cases expr with
  | literal literal span =>
      cases h
      exact .refl
  | var name span =>
      cases h
      exact .refl
  | array items span =>
      cases h with
      | array hstart hitems =>
          exact (Context.Emits.initTemporary hstart).trans
            ((Context.Emits.write _ rfl).trans (hitems.emits items))

theorem Expr.CompilesAll.emits (items : List Expr) {holder : String} {c d : Context}
    {lines : List Line} (h : Expr.CompilesAll items holder c lines d) : c.Emits lines d := by
  cases items with
  | nil =>
      cases h
      exact .refl
  | cons item rest =>
      cases h with
      | cons hitem _ hrest =>
          exact (hitem.emits item).trans ((Context.Emits.write _ rfl).trans (hrest.emits rest))

end

theorem Expr.Holds.emits {value : Expr} {c d : Context} {holder : String} {lines : List Line}
    (h : value.Holds c holder lines d) : c.Emits lines d := by
  cases h with
  | held hvalue _ => exact hvalue.emits value
  | boxed hvalue _ hstart =>
      exact (hvalue.emits value).trans ((Context.Emits.initTemporary hstart).trans (.write _ rfl))

mutual

/-- Compiling an expression needs no header and calls nothing. -/
theorem Expr.Compiles.callless (expr : Expr) {c d : Context} {value : Resolved} {lines : List Line}
    (h : expr.Compiles c value lines d) :
    d.headers = c.headers ∧ lines.filterMap Line.call? = [] := by
  cases expr with
  | literal literal span =>
      cases h
      exact ⟨rfl, rfl⟩
  | var name span =>
      cases h
      exact ⟨rfl, rfl⟩
  | array items span =>
      cases h with
      | array hstart hitems =>
          obtain ⟨hheaders, hcalls⟩ := hitems.callless items
          cases hstart
          exact ⟨hheaders, hcalls⟩

theorem Expr.CompilesAll.callless (items : List Expr) {holder : String} {c d : Context}
    {lines : List Line} (h : Expr.CompilesAll items holder c lines d) :
    d.headers = c.headers ∧ lines.filterMap Line.call? = [] := by
  cases items with
  | nil =>
      cases h
      exact ⟨rfl, rfl⟩
  | cons item rest =>
      cases h with
      | cons hitem _ hrest =>
          obtain ⟨hheaders, hcalls⟩ := hitem.callless item
          obtain ⟨hheaders', hcalls'⟩ := hrest.callless rest
          refine ⟨hheaders'.trans hheaders, ?_⟩
          rw [List.filterMap_append, hcalls, List.nil_append]
          exact hcalls'

end

theorem Expr.Holds.callless {value : Expr} {c d : Context} {holder : String} {lines : List Line}
    (h : value.Holds c holder lines d) :
    d.headers = c.headers ∧ lines.filterMap Line.call? = [] := by
  cases h with
  | held hvalue _ => exact hvalue.callless value
  | boxed hvalue _ hstart =>
      obtain ⟨hheaders, hcalls⟩ := hvalue.callless value
      cases hstart
      refine ⟨hheaders, ?_⟩
      rw [List.filterMap_append, hcalls]
      rfl

/-- What can be an index emits nothing. -/
theorem Expr.Compiles.of_isIndex {index : Expr} {c d : Context} {value : Resolved}
    {lines : List Line} (h : index.Compiles c value lines d) (hindex : value.type.isIndex = true) :
    lines = [] ∧ d = c := by
  cases h with
  | literal => exact ⟨rfl, rfl⟩
  | var => exact ⟨rfl, rfl⟩
  | array => cases hindex

theorem indexes_of_ok {span : Span} {indexes : List Expr} {s t : CompileState ρ}
    {values : List Resolved} (h : resolveIndexes Expr.compile span indexes s = .ok values t) :
    (∀ index ∈ indexes, ∃ resolved, index.Compiles s.context resolved [] s.context) ∧
      t.context = s.context := by
  induction indexes generalizing s values with
  | nil =>
      cases h
      exact ⟨by simp, rfl⟩
  | cons index rest ih =>
      obtain ⟨value, s₁, hvalue, h⟩ := bind_ok h
      split at h
      · next hindex =>
          obtain ⟨others, s₂, hothers, hend⟩ := bind_ok h
          cases hend
          obtain ⟨lines, hlines⟩ := index.compiles_of_ok (withSpan_ok hvalue)
          obtain ⟨rfl, hsame⟩ := hlines.of_isIndex hindex
          obtain ⟨hrest, hcontext⟩ := ih hothers
          rw [hsame] at hlines hrest hcontext
          exact ⟨List.forall_mem_cons.mpr ⟨⟨value, hlines⟩, hrest⟩, hcontext⟩
      · cases h

theorem classified_of_ok {span : Span} {chain result : KeyChain} {indexes : List Resolved}
    {s t : CompileState ρ} (h : classifyIndexes span chain indexes s = .ok result t) :
    t.context = s.context := by
  induction indexes generalizing s chain with
  | nil =>
      cases h
      rfl
  | cons index rest ih =>
      obtain ⟨encoding, s₁, hclassify, h⟩ := bind_ok h
      obtain ⟨found, s₂, hread, htrace⟩ := bind_ok hclassify
      obtain ⟨_, s₃, hrecord, hend⟩ := bind_ok htrace
      cases hend
      obtain ⟨-, rfl⟩ := reading_ok hread
      exact (ih h).trans (record_ok hrecord)

/-- A container that passes its check has its variable in the table. -/
theorem Container.contains_of_validate {container : Container} {span : Span} {c : Context}
    (hc : c.symbols.WellFormed) (h : container.validate span c = .ok ()) {name : String}
    (hbase : container.base? = some name) : c.symbols.contains name = true := by
  rcases hc.lookup_cases name with hnone | ⟨v, hv, -⟩
  · rw [validate_of_absent hbase hnone] at h
    cases h
  · exact SymbolTable.contains_of_lookup hv

/-- An append that is compiled emits the code of its value and then the call. -/
theorem accepted_of_ok {target : Target} {value : Expr} {span : Span} {s t : CompileState ρ}
    {call : RuntimeCall} (hs : s.context.symbols.WellFormed)
    (h : compileAppend Expr.compile target value span s = .ok call t) :
    ∃ lines d, target.Accepted value s.context call.holder lines d ∧
      t.context = d.writeCall call := by
  have h := onRejection_ok (transaction_ok h)
  obtain ⟨_, s₁, hcheck, h⟩ := bind_ok h
  obtain ⟨hvalidate, rfl⟩ := reading_ok hcheck
  obtain ⟨_, s₂, hstage₁, h⟩ := bind_ok h
  obtain ⟨values, s₃, hvalues, h⟩ := bind_ok h
  obtain ⟨_, s₄, hstage₂, h⟩ := bind_ok h
  obtain ⟨chain, s₅, hchain, h⟩ := bind_ok h
  obtain ⟨_, s₆, hstage₃, h⟩ := bind_ok h
  obtain ⟨holder, s₇, hholder, h⟩ := bind_ok h
  obtain ⟨_, s₈, hstage₄, h⟩ := bind_ok h
  obtain ⟨emitted, s₉, hcall, h⟩ := bind_ok h
  obtain ⟨_, s₁₀, hstage₅, hend⟩ := bind_ok h
  cases hend
  obtain ⟨hindexes, hresolved⟩ := indexes_of_ok hvalues
  obtain ⟨lines, hlines⟩ := holds_of_ok (withSpan_ok hholder)
  -- up to the value, nothing has changed the context
  have hbefore : s₆.context = s.context :=
    calc s₆.context = s₅.context := record_ok hstage₃
      _ = s₄.context := classified_of_ok hchain
      _ = s₃.context := record_ok hstage₂
      _ = s₂.context := hresolved
      _ = s.context := record_ok hstage₁
  rw [record_ok hstage₁] at hindexes
  rw [hbefore] at hlines
  have hcalled := updating_ok hcall
  simp only [Prod.mk.injEq] at hcalled
  obtain ⟨rfl, hcontext⟩ := hcalled
  refine ⟨lines, s₇.context, ⟨fun name hbase => ?_, hindexes, hlines⟩, ?_⟩
  · exact Container.contains_of_validate hs hvalidate hbase
  · rw [record_ok hstage₅, ← hcontext, record_ok hstage₄]

/-- The assignments are accepted one after the other, and emit the lines together. -/
inductive Assigns : List Assignment → Context → List Line → Context → Prop
  | nil (c : Context) : Assigns [] c [] c
  | cons {assignment : Assignment} {rest : List Assignment} {c d e : Context} {call : RuntimeCall}
      {lines lines' : List Line}
      (haccepted : assignment.target.Accepted assignment.value c call.holder lines d)
      (hcall : call.Lowers c assignment.target assignment.value)
      (hrest : Assigns rest (d.writeCall call) lines' e) :
      Assigns (assignment :: rest) c (lines ++ .call call :: lines') e

namespace Assigns

variable {assignments assignments' : List Assignment} {c d e : Context} {lines lines' : List Line}

theorem append (first : Assigns assignments c lines d) (second : Assigns assignments' d lines' e) :
    Assigns (assignments ++ assignments') c (lines ++ lines') e := by
  induction first with
  | nil c => exact second
  | cons haccepted hcall _ ih =>
      rw [List.cons_append, List.append_assoc, List.cons_append]
      exact .cons haccepted hcall (ih second)

theorem emits (h : Assigns assignments c lines d) : c.Emits lines d := by
  induction h with
  | nil c => exact .refl
  | cons haccepted _ _ ih =>
      exact haccepted.value.emits.trans ((Context.Emits.writeCall _ _).trans ih)

end Assigns

theorem assigns_of_ok {assignments : List Assignment} {calls : List RuntimeCall}
    {s t : CompileState ρ} (hs : s.context.Reachable)
    (h : compileAssignments Expr.compile assignments s = .ok calls t) :
    ∃ lines, Assigns assignments s.context lines t.context ∧
      lines.filterMap Line.call? = calls := by
  induction assignments generalizing s calls with
  | nil =>
      cases h
      exact ⟨[], .nil _, rfl⟩
  | cons assignment rest ih =>
      obtain ⟨call, s₁, hcall, h⟩ := bind_ok h
      obtain ⟨others, s₂, hothers, hend⟩ := bind_ok h
      cases hend
      obtain ⟨lines, d, haccepted, hd⟩ := accepted_of_ok hs.wellFormed hcall
      have hlowers := compileAppend_returns _ _ _ hs s call s₁ .refl hcall
      have hgrown : s.context.Grows s₁.context :=
        hd ▸ haccepted.value.emits.grows.trans (.writeCall d call)
      obtain ⟨lines', hrest, hcalls⟩ := ih (hgrown.reachable hs) hothers
      refine ⟨_, .cons haccepted hlowers (hd ▸ hrest), ?_⟩
      rw [List.filterMap_append, haccepted.value.callless.2, List.nil_append, ← hcalls]
      rfl

/-- A run does what the assignments of the accepted statements do. -/
theorem Run.assigns {c c' : Context} {verdicts : List (Statement × Option Diagnostic)}
    (run : Run ρ c verdicts c') (hc : c.Reachable) :
    ∃ lines, Assigns ((accepted verdicts).flatMap Statement.assignments) c lines c' := by
  induction run with
  | done => exact ⟨[], .nil _⟩
  | @accept statement rest c' calls s t h tail ih =>
      obtain ⟨lines, hlines, -⟩ := assigns_of_ok hc (transaction_ok h)
      obtain ⟨lines', hlines'⟩ := ih (hlines.emits.grows.reachable hc)
      exact ⟨lines ++ lines', hlines.append hlines'⟩
  | @reject statement rest c' d s t h tail ih =>
      have hsame := (compileStatement_undoes Expr.compile_additive hc statement).restored d t h
      rw [hsame] at ih
      exact ih hc

end AppendLowering
