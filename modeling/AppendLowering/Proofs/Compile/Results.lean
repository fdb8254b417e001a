import AppendLowering.Proofs.Compile.Additive
import Mathlib.Data.List.Forall2

/-!
# What the stages give

An expression compiles to the code of a literal, to the name of a variable or
to a temporary that holds an array. Of these, only integers, strings and
variables become indexes of a chain.
-/

namespace AppendLowering

namespace CompileM

variable {ρ α β : Type} {c : Context}

/-- Whatever the action gives in a context that has grown out of `c` is as `post` says. -/
def Returns (c : Context) (post : α → Prop) (action : CompileM ρ α) : Prop :=
  c.Reachable → ∀ s a t, c.Grows s.context → action s = .ok a t → post a

namespace Returns

variable {action : CompileM ρ α} {post : α → Prop}

theorem trivial (action : CompileM ρ α) : Returns c (fun _ => True) action :=
  fun _ _ _ _ _ _ => True.intro

theorem pure {a : α} (h : post a) : Returns c post (pure a : CompileM ρ α) := by
  intro hc s b t hs hrun
  cases hrun
  exact h

theorem bind {next : α → CompileM ρ β} {post' : β → Prop}
    (hadds : OnlyAdds (fun _ => False) action) (hfirst : Returns c post action)
    (hnext : ∀ a, post a → Returns c post' (next a)) :
    Returns c post' (action >>= next) := by
  intro hc s b u hs hrun
  simp only [Bind.bind, EStateM.bind] at hrun
  cases hfirstRun : action s with
  | ok a t =>
      rw [hfirstRun] at hrun
      have hgrown : c.Grows t.context := hs.trans (hadds.grows_ok (hs.reachable hc) hfirstRun)
      exact hnext a (hfirst hc s a t hs hfirstRun) hc t b u hgrown hrun
  | error failure t =>
      rw [hfirstRun] at hrun
      cases hrun

theorem reading {query : Context → Except Failure α}
    (h : ∀ d a, c.Reachable → c.Grows d → query d = .ok a → post a) :
    Returns c post (CompileM.reading query : CompileM ρ α) := by
  intro hc s a t hs hrun
  unfold CompileM.reading at hrun
  split at hrun
  · next b hquery =>
      cases hrun
      exact h s.context a hc hs hquery
  · cases hrun

theorem updating {change : Context → α × Context}
    (h : ∀ d, c.Grows d → post (change d).1) :
    Returns c post (CompileM.updating change : CompileM ρ α) := by
  intro hc s a t hs hrun
  cases hrun
  exact h s.context hs

theorem withSpan (h : Returns c post action) (span : Span) :
    Returns c post (CompileM.withSpan span action) := by
  intro hc s a t hs hrun
  unfold CompileM.withSpan at hrun
  rcases haction : action s with ⟨b, u⟩ | ⟨d | f, u⟩ <;> rw [haction] at hrun <;> cases hrun
  exact h hc s a t hs haction

theorem onRejection (h : Returns c post action) (entry : Diagnostic → LogEntry) :
    Returns c post (CompileM.onRejection entry action) := by
  intro hc s a t hs hrun
  unfold CompileM.onRejection at hrun
  rcases haction : action s with ⟨b, u⟩ | ⟨d | f, u⟩ <;> rw [haction] at hrun <;> cases hrun
  exact h hc s a t hs haction

theorem transaction (h : Returns c post action) :
    Returns c post (CompileM.transaction action) := by
  intro hc s a t hs hrun
  unfold CompileM.transaction at hrun
  rcases haction : action s with ⟨b, u⟩ | ⟨d | f, u⟩ <;> simp only [haction] at hrun
  · cases hrun
    exact h hc s a t hs haction
  · split at hrun <;> cases hrun
  · cases hrun

end Returns

end CompileM

open CompileM

variable {ρ : Type} {c : Context}

/-- What an expression compiles to. -/
inductive Expr.Yields : Expr → Resolved → Prop
  | literal (value : Literal) (span : Span) :
      Yields (.literal value span) ⟨value.resolve.1, value.resolve.2, span⟩
  | var (name : String) (span : Span) : Yields (.var name span) ⟨.var, name, span⟩
  | array (items : List Expr) (span : Span) (number : Nat) :
      Yields (.array items span) ⟨.array, SymbolTable.temporaryName number, span⟩

/-- A variable is read under its own name. -/
theorem Context.name_of_readVariable {name : String} {span : Span} {v : Variable}
    (hc : c.symbols.WellFormed) (h : c.readVariable name span = .ok v) : v.name = name := by
  cases hcause : c.unreadable? name with
  | none =>
      obtain ⟨w, -, hname, -, hread⟩ := readVariable_of_readable hc hcause
      rw [hread] at h
      cases h
      exact hname
  | some cause =>
      rw [readVariable_of_unreadable hc hcause] at h
      cases h

theorem Expr.compile_returns (expr : Expr) :
    Returns c expr.Yields (expr.compile : CompileM ρ Resolved) := by
  cases expr with
  | literal value span =>
      rw [Expr.compile]
      exact .bind (Expr.traceResolved_onlyAdds _ _) (.trivial _) fun _ _ =>
        .pure (.literal value span)
  | var name span =>
      rw [Expr.compile]
      have hname : Returns c (fun v => v.name = name)
          (CompileM.readVariable name span : CompileM ρ Variable) :=
        .reading fun d v hc hd hread =>
          Context.name_of_readVariable (hd.reachable hc).wellFormed hread
      refine .bind (.reading (.readVariable name span)) hname ?_
      intro v hv
      refine .bind (Expr.traceResolved_onlyAdds _ _) (.trivial _) fun _ _ => .pure ?_
      rw [hv]
      exact .var name span
  | array items span =>
      rw [Expr.compile]
      have hholder : Returns c (fun holder => ∃ number, holder = SymbolTable.temporaryName number)
          (CompileM.initTemporary span : CompileM ρ String) :=
        .updating fun d _ => ⟨_, rfl⟩
      refine .bind (.initTemporary span) hholder ?_
      rintro holder ⟨number, hnumber⟩
      refine .bind (.write _) (.trivial _) ?_
      intro _ _
      refine .bind (Expr.compileItems_onlyAdds holder items) (.trivial _) ?_
      intro _ _
      refine .bind (Expr.traceResolved_onlyAdds _ _) (.trivial _) fun _ _ => .pure ?_
      rw [hnumber]
      exact .array items span number

/-- The number that a literal writes, if it is an integer. -/
def Literal.integer? : Literal → Option Int
  | .int value => some value.toInt
  | .uint value => some value.toNat
  | .long value => some value.toInt
  | .ulong value => some value.toNat
  | _ => none

/-- What is passed to the runtime for an index of the source. -/
inductive Expr.Passed : Expr → Encoding × String → Prop
  | integer {value : Literal} {i : Int} (h : value.integer? = some i) (span : Span) :
      Passed (.literal value span) (.integer, Int.repr i)
  | string (text : String) (span : Span) :
      Passed (.literal (.string text) span) (.string, CString.escape text)
  | var {encoding : Encoding} (h : encoding ≠ .string) (name : String) (span : Span) :
      Passed (.var name span) (encoding, name)

/-- The value is compiled to something that can be an index. -/
def Expr.YieldsIndex (index : Expr) (value : Resolved) : Prop :=
  index.Yields value ∧ value.type.isIndex = true

theorem resolveIndexes_returns (span : Span) (indexes : List Expr) :
    Returns c (List.Forall₂ Expr.YieldsIndex indexes)
      (resolveIndexes Expr.compile span indexes : CompileM ρ (List Resolved)) := by
  induction indexes with
  | nil => exact .pure .nil
  | cons index rest ih =>
      refine .bind ((Expr.compile_onlyAdds index).withSpan span)
        ((Expr.compile_returns index).withSpan span) ?_
      intro value hvalue
      split
      · next hindex =>
          refine .bind (resolveIndexes_onlyAdds Expr.compile_onlyAdds span rest) ih ?_
          intro values hvalues
          exact .pure (.cons ⟨hvalue, hindex⟩ hvalues)
      · intro _ s a t _ hrun
        cases hrun

theorem Variable.encoding?_ne_string {v : Variable} {encoding : Encoding}
    (h : v.encoding? = some encoding) : encoding ≠ .string := by
  unfold Variable.encoding? at h
  split at h <;> cases h <;> decide

/-- The encoding of a compiled index fits the index. -/
theorem Expr.YieldsIndex.passed {index : Expr} {value : Resolved} (h : index.YieldsIndex value)
    {span : Span} {d : Context} {encoding : Encoding}
    (hencoding : value.encoding span d = .ok encoding) : index.Passed (encoding, value.code) := by
  obtain ⟨hyields, hindex⟩ := h
  cases hyields with
  | literal literal place =>
      cases literal with
      | int _ | long _ =>
          cases hencoding
          exact .integer rfl place
      | uint n =>
          cases hencoding
          exact .integer (show (Literal.uint n).integer? = some ↑n.toNat from rfl) place
      | ulong n =>
          cases hencoding
          exact .integer (show (Literal.ulong n).integer? = some ↑n.toNat from rfl) place
      | string text =>
          cases hencoding
          exact .string text place
      | char _ | double _ | bool _ | null => cases hindex
  | var name place =>
      simp only [Resolved.encoding, bind, Except.bind] at hencoding
      split at hencoding
      · cases hencoding
      · split at hencoding
        · next found =>
            cases hencoding
            exact .var (Variable.encoding?_ne_string found) name place
        · cases hencoding
  | array items place number => cases hindex

theorem Expr.YieldsIndex.classify_returns {index : Expr} {value : Resolved}
    (h : index.YieldsIndex value) (span : Span) :
    Returns c (fun encoding => index.Passed (encoding, value.code))
      (classifyIndex span value : CompileM ρ Encoding) := by
  have hencoding : Returns c (fun encoding => index.Passed (encoding, value.code))
      (CompileM.reading (value.encoding span) : CompileM ρ Encoding) :=
    .reading fun d encoding _ _ hrun => h.passed hrun
  refine .bind (.reading (.encoding value span)) hencoding ?_
  intro encoding hpassed
  exact .bind (.record _) (.trivial _) fun _ _ => .pure hpassed

theorem classifyIndexes_returns (span : Span) (chain : KeyChain) {indexes : List Expr}
    {values : List Resolved} (h : List.Forall₂ Expr.YieldsIndex indexes values) :
    Returns c (fun result => ∃ passed, List.Forall₂ Expr.Passed indexes passed ∧
        result = passed.foldl (fun chain index => chain.push index.1 index.2) chain)
      (classifyIndexes span chain values : CompileM ρ KeyChain) := by
  induction h generalizing chain with
  | nil => exact .pure ⟨[], .nil, rfl⟩
  | @cons index value rest values hvalue _ ih =>
      refine .bind (classifyIndex_onlyAdds span value) (hvalue.classify_returns span) ?_
      intro encoding hpassed hc s a t hs hrun
      obtain ⟨passed, hall, hresult⟩ := ih _ hc s a t hs hrun
      exact ⟨(encoding, value.code) :: passed, .cons hpassed hall, hresult⟩

/-- The name under which a value is passed: a temporary, or the variable that it is. -/
def Expr.HeldBy (value : Expr) (holder : String) : Prop :=
  (∃ number, holder = SymbolTable.temporaryName number) ∨ ∃ span, value = .var holder span

theorem Variable.name_of_operand {v : Variable} {name : String} (h : v.operand = .held name) :
    v.name = name := by
  unfold Variable.operand at h
  split at h <;> cases h <;> rfl

/-- What holds a compiled value without further ado is a temporary or a variable. -/
theorem Expr.Yields.heldBy {value : Expr} {resolved : Resolved} (h : value.Yields resolved)
    {d : Context} (hd : d.symbols.WellFormed) {name : String}
    (hoperand : resolved.operand d = .ok (.held name)) : value.HeldBy name := by
  cases h with
  | literal literal span => cases literal <;> cases hoperand
  | var variableName span =>
      cases hread : d.readVariable variableName span with
      | ok v =>
          have hv : v.operand = .held name := by
            simpa [Resolved.operand, hread, Except.map] using hoperand
          rw [← Context.name_of_readVariable hd hread, Variable.name_of_operand hv]
          exact .inr ⟨span, rfl⟩
      | error failure => simp [Resolved.operand, hread, Except.map] at hoperand
  | array items span number =>
      cases hoperand
      exact .inl ⟨number, rfl⟩

theorem holdValue_returns (value : Expr) :
    Returns c value.HeldBy (holdValue Expr.compile value : CompileM ρ String) := by
  refine .bind (Expr.compile_onlyAdds value) (Expr.compile_returns value) ?_
  intro resolved hyields
  have hoperand : Returns c (fun operand => ∀ name, operand = .held name → value.HeldBy name)
      (CompileM.reading resolved.operand : CompileM ρ Operand) :=
    .reading fun d operand hc hd hquery name hname =>
      hyields.heldBy (hd.reachable hc).wellFormed (hname ▸ hquery)
  refine .bind (.reading (.operand resolved)) hoperand ?_
  intro operand hheld
  cases operand with
  | held name => exact .pure (hheld name rfl)
  | immediate immediate =>
      have hholder : Returns c value.HeldBy
          (CompileM.initTemporary resolved.span : CompileM ρ String) :=
        .updating fun d _ => .inl ⟨_, rfl⟩
      refine .bind (.initTemporary _) hholder ?_
      intro holder hheldBy
      split
      · exact .bind (.write _) (.trivial _) fun _ _ => .pure hheldBy
      · refine .bind (.record _) (.trivial _) ?_
        intro _ _
        exact .bind (.write _) (.trivial _) fun _ _ => .pure hheldBy

/-- The call is the one that the target and the value call for in the context. -/
structure RuntimeCall.Lowers (c : Context) (target : Target) (value : Expr) (call : RuntimeCall) :
    Prop where
  container : call.container = target.container
  holder : value.HeldBy call.holder
  chain : ∃ passed, List.Forall₂ Expr.Passed target.indexes passed ∧
    call.chain = KeyChain.ofList passed
  zts : call.zts = c.config.codegen.zts

theorem lowerAppend_returns (target : Target) (value : Expr) (span : Span) :
    Returns c (RuntimeCall.Lowers c target value)
      (lowerAppend Expr.compile target value span : CompileM ρ RuntimeCall) := by
  refine .bind (.reading (.validate target.container span)) (.trivial _) ?_
  intro _ _
  refine .bind (traceStage_onlyAdds _ _) (.trivial _) ?_
  intro _ _
  refine .bind (resolveIndexes_onlyAdds Expr.compile_onlyAdds span target.indexes)
    (resolveIndexes_returns span target.indexes) ?_
  intro values hvalues
  refine .bind (traceStage_onlyAdds _ _) (.trivial _) ?_
  intro _ _
  refine .bind (classifyIndexes_onlyAdds span .empty values)
    (classifyIndexes_returns span .empty hvalues) ?_
  intro chain hchain
  refine .bind (traceStage_onlyAdds _ _) (.trivial _) ?_
  intro _ _
  refine .bind ((holdValue_onlyAdds Expr.compile_onlyAdds value).withSpan span)
    ((holdValue_returns value).withSpan span) ?_
  intro holder hholder
  refine .bind (traceStage_onlyAdds _ _) (.trivial _) ?_
  intro _ _
  refine .bind (.updating fun d => .writeCall d _)
    (?_ : Returns c (RuntimeCall.Lowers c target value) _) fun call hcall => ?_
  · refine .updating ?_
    intro d hd
    exact ⟨rfl, hholder, hchain, congrArg (·.codegen.zts) hd.config_eq⟩
  · exact .bind (traceStage_onlyAdds _ _) (.trivial _) fun _ _ => .pure hcall

theorem compileAppend_returns (target : Target) (value : Expr) (span : Span) :
    Returns c (RuntimeCall.Lowers c target value)
      (compileAppend Expr.compile target value span : CompileM ρ RuntimeCall) :=
  ((lowerAppend_returns target value span).onRejection _).transaction

end AppendLowering
