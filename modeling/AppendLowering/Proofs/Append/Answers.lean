import AppendLowering.Proofs.Append.Reader
import AppendLowering.Proofs.Compile.Emission

/-!
# What becomes of the answers of a resolver

An arbitrary resolver may answer what it likes, and do to the context what it
likes. The indexes are resolved one after the other, and only then encoded, all
of them in the context that the last of them has left. The chain of a call
follows the answers: one encoding and one argument for each of them, in order.
-/

namespace AppendLowering

open CompileM

variable {ρ : Type}

/-- The state with an entry more in its log, if the configuration lets it through. -/
def CompileState.logged (s : CompileState ρ) (entry : LogEntry) : CompileState ρ :=
  { s with log := s.log.record s.context.config entry }

/-- The state when an assignment to the container has passed a stage. -/
def CompileState.passed (s : CompileState ρ) (container : Container) (stage : Stage) :
    CompileState ρ :=
  s.logged (.trace .codegen (container.function ++ ": " ++ stage.name))

theorem traceStage_eq (container : Container) (stage : Stage) (s : CompileState ρ) :
    traceStage container stage s = .ok () (s.passed container stage) :=
  rfl

/-- From the first state to the second, the resolver compiles the expressions one after the other,
each of them to something that can be an index. -/
inductive Resolver.Answers (resolver : Resolver ρ) :
    CompileState ρ → List Expr → List Resolved → CompileState ρ → Prop
  | nil (s : CompileState ρ) : Answers resolver s [] [] s
  | cons {s t u : CompileState ρ} {index : Expr} {value : Resolved} {rest : List Expr}
      {values : List Resolved} (hanswer : resolver index s = .ok value t)
      (hindex : value.type.isIndex = true) (hrest : Answers resolver t rest values u) :
      Answers resolver s (index :: rest) (value :: values) u

theorem Resolver.Answers.length_eq {resolver : Resolver ρ} {s t : CompileState ρ}
    {indexes : List Expr} {values : List Resolved} (h : resolver.Answers s indexes values t) :
    values.length = indexes.length := by
  induction h with
  | nil s => rfl
  | cons _ _ _ ih => simp [ih]

/-- Resolving the indexes succeeds exactly with the answers of the resolver. -/
theorem resolveIndexes_ok_iff {resolver : Resolver ρ} {span : Span} {indexes : List Expr}
    {values : List Resolved} {s t : CompileState ρ} :
    resolveIndexes resolver span indexes s = .ok values t ↔
      resolver.Answers s indexes values t := by
  constructor
  · intro h
    induction indexes generalizing s values with
    | nil =>
        cases h
        exact .nil _
    | cons index rest ih =>
        obtain ⟨value, u, hvalue, h⟩ := bind_ok h
        split at h
        · next hindex =>
            obtain ⟨others, w, hothers, hend⟩ := bind_ok h
            cases hend
            exact .cons (withSpan_ok hvalue) hindex (ih hothers)
        · cases h
  · intro h
    induction h with
    | nil s => rfl
    | cons hanswer hindex _ ih =>
        simp only [resolveIndexes, bind, EStateM.bind, withSpan, hanswer, hindex, if_true, ih]
        rfl

/-- What a call tells the runtime about one index: its place in the key string, the number of
argument slots that it takes, and its argument. -/
structure PassedIndex where
  encoding : Encoding
  key : Char
  slots : Nat
  argument : String
  deriving DecidableEq, Repr

/-- How a compiled index is passed in a context. A variable goes by what its name is declared as. -/
inductive Resolved.PassedAs (c : Context) (index : Resolved) : PassedIndex → Prop
  | integer (h : index.type.isInteger = true) : PassedAs c index ⟨.integer, 'l', 1, index.code⟩
  | string (h : index.type = .string) :
      PassedAs c index ⟨.string, 's', 2, "SL(\"" ++ index.code ++ "\")"⟩
  | integerVariable {v : Variable} (h : index.type = .var)
      (hv : c.symbols.lookup index.code = .ok (some v)) (hreadable : v.isReadable = true)
      (hinteger : v.type.isInteger = true) : PassedAs c index ⟨.integer, 'l', 1, index.code⟩
  | dynamicVariable {v : Variable} (h : index.type = .var)
      (hv : c.symbols.lookup index.code = .ok (some v)) (hreadable : v.isReadable = true)
      (hdynamic : v.type = .string ∨ v.type = .dynamic) :
      PassedAs c index ⟨.dynamic, 'z', 1, index.code⟩

/-- The index that a call passes when it has an encoding and a code. -/
def PassedIndex.ofCode (encoding : Encoding) (code : String) : PassedIndex :=
  { encoding, key := encoding.key, slots := encoding.slots, argument := encoding.argument code }

theorem Resolved.passedAs_of_encoding {index : Resolved} {span : Span} {c : Context}
    {encoding : Encoding} (h : index.encoding span c = .ok encoding) :
    index.PassedAs c (.ofCode encoding index.code) := by
  cases htype : index.type with
  | int | uint | long | ulong =>
      simp only [Resolved.encoding, htype] at h
      cases h
      exact .integer (by simp [htype, ResolvedType.isInteger])
  | string =>
      simp only [Resolved.encoding, htype] at h
      cases h
      exact .string htype
  | var =>
      simp only [Resolved.encoding, htype, bind, Except.bind] at h
      split at h
      · cases h
      · next v hread =>
          obtain ⟨hv, hreadable⟩ := Context.lookup_of_readVariable hread
          cases hdeclared : v.type with
          | int | uint | long | ulong =>
              simp only [Variable.encoding?, hdeclared] at h
              cases h
              exact .integerVariable htype hv hreadable (by simp [hdeclared, DataType.isInteger])
          | string | dynamic =>
              simp only [Variable.encoding?, hdeclared] at h
              cases h
              exact .dynamicVariable htype hv hreadable (by simp [hdeclared])
          | char | uchar | bool | double | null | array =>
              simp only [Variable.encoding?, hdeclared] at h
              cases h
  | char | uchar | bool | double | null | array =>
      simp only [Resolved.encoding, htype] at h
      cases h

/-- The index has the encoding and the code; `span` is the place of the assignment. -/
def EncodedAs (span : Span) (c : Context) (index : Resolved) (encoded : Encoding × String) : Prop :=
  index.encoding span c = .ok encoded.1 ∧ index.code = encoded.2

theorem EncodedAs.passedAs {span : Span} {c : Context} {index : Resolved}
    {encoded : Encoding × String} (h : EncodedAs span c index encoded) :
    index.PassedAs c (.ofCode encoded.1 encoded.2) :=
  h.2 ▸ Resolved.passedAs_of_encoding h.1

/-- Encoding the indexes logs, and does nothing else to the state. -/
theorem classifyIndexes_ok {span : Span} {chain result : KeyChain} {values : List Resolved}
    {s t : CompileState ρ} (h : classifyIndexes span chain values s = .ok result t) :
    t.context = s.context ∧ ∃ encoded, List.Forall₂ (EncodedAs span s.context) values encoded ∧
      result = encoded.foldl (fun chain index => chain.push index.1 index.2) chain := by
  induction values generalizing s chain with
  | nil =>
      cases h
      exact ⟨rfl, [], .nil, rfl⟩
  | cons value rest ih =>
      obtain ⟨encoding, s₁, hclassify, h⟩ := bind_ok h
      obtain ⟨found, s₂, hread, htrace⟩ := bind_ok hclassify
      obtain ⟨_, s₃, hrecord, hend⟩ := bind_ok htrace
      cases hend
      obtain ⟨hencoding, rfl⟩ := reading_ok hread
      obtain ⟨hcontext, encoded, hencoded, hresult⟩ := ih h
      rw [record_ok hrecord] at hcontext hencoded
      exact ⟨hcontext, (encoding, value.code) :: encoded, .cons ⟨hencoding, rfl⟩ hencoded, hresult⟩

/-- What the stages of a successful append have done: the indexes are resolved, then encoded in
the context that this has left, then the value is put into its holder, and the call is emitted
last. -/
structure AppendRun (resolver : Resolver ρ) (target : Target) (value : Expr) (span : Span)
    (s : CompileState ρ) (values : List Resolved) (resolved held : CompileState ρ)
    (call : RuntimeCall) (t : CompileState ρ) : Prop where
  valid : target.container.validate span s.context = .ok ()
  answers : resolver.Answers (s.passed target.container .targetValidated) target.indexes values
    resolved
  chain : ∃ encoded, List.Forall₂ (EncodedAs span resolved.context) values encoded ∧
    call.chain = KeyChain.ofList encoded
  holder : ∃ prepared, prepared.context = resolved.context ∧
    holdValue resolver value prepared = .ok call.holder held
  emitted : t.context = held.context.writeCall call

theorem appendRun_of_ok {resolver : Resolver ρ} {target : Target} {value : Expr} {span : Span}
    {s t : CompileState ρ} {call : RuntimeCall}
    (h : compileAppend resolver target value span s = .ok call t) :
    ∃ values resolved held, AppendRun resolver target value span s values resolved held call t := by
  have h := onRejection_ok (transaction_ok h)
  obtain ⟨_, s₁, hcheck, h⟩ := bind_ok h
  obtain ⟨hvalid, rfl⟩ := reading_ok hcheck
  obtain ⟨_, s₂, hstage₁, h⟩ := bind_ok h
  obtain ⟨values, s₃, hvalues, h⟩ := bind_ok h
  obtain ⟨_, s₄, hstage₂, h⟩ := bind_ok h
  obtain ⟨chain, s₅, hchain, h⟩ := bind_ok h
  obtain ⟨_, s₆, hstage₃, h⟩ := bind_ok h
  obtain ⟨holder, s₇, hholder, h⟩ := bind_ok h
  obtain ⟨_, s₈, hstage₄, h⟩ := bind_ok h
  obtain ⟨emitted, s₉, hcall, h⟩ := bind_ok h
  obtain ⟨_, s₁₀, hstage₅, hend⟩ := bind_ok h
  cases hend
  cases hstage₁
  obtain ⟨hcontext, encoded, hencoded, rfl⟩ := classifyIndexes_ok hchain
  have hlogged : s₄.context = s₃.context := record_ok hstage₂
  have hprepared : s₆.context = s₃.context := (record_ok hstage₃).trans (hcontext.trans hlogged)
  have hcalled := updating_ok hcall
  simp only [Prod.mk.injEq] at hcalled
  obtain ⟨rfl, hemitted⟩ := hcalled
  refine ⟨values, s₃, s₇, hvalid, resolveIndexes_ok_iff.mp hvalues, ⟨encoded, ?_, rfl⟩,
    ⟨s₆, hprepared, withSpan_ok hholder⟩, ?_⟩
  · exact hlogged ▸ hencoded
  · rw [record_ok hstage₅, ← hemitted, record_ok hstage₄]

theorem KeyChain.encodings_ofList (passed : List (Encoding × String)) :
    (ofList passed).encodings = passed.map Prod.fst := by
  simp [ofList, foldl_push, empty]

theorem Context.code_writeCall (c : Context) (call : RuntimeCall) :
    (c.writeCall call).code.text = c.code.text ++ (call.render ++ ";" ++ "\n") := by
  simp [writeCall, write, CodeBuffer.writeLine, Line.render, String.append_assoc]

/-- No index has the key of the marker. -/
theorem Encoding.key_ne_marker (encoding : Encoding) : encoding.key ≠ 'a' := by
  cases encoding <;> decide

/-- Whatever the resolver answers and does, the keys, the slots and the arguments of a compiled
call are those of its answers to the indexes, one for each of them and in order. Variables go by
their types in the context that the last index has left. The call is the last thing that is
written, after the code of its value. -/
theorem compileAppend_follows_answers {resolver : Resolver ρ} {target : Target} {value : Expr}
    {span : Span} {s t : CompileState ρ} {call : RuntimeCall}
    (h : compileAppend resolver target value span s = .ok call t) :
    ∃ values resolved passed prepared held,
      resolver.Answers (s.passed target.container .targetValidated) target.indexes values
        resolved ∧
      List.Forall₂ (Resolved.PassedAs resolved.context) values passed ∧
      call.chain.encodings.length = target.indexes.length ∧
      call.chain.arguments.length = target.indexes.length ∧
      call.chain.encodings = passed.map PassedIndex.encoding ∧
      call.chain.arguments = passed.map PassedIndex.argument ∧
      call.chain.keys.toList = passed.map PassedIndex.key ++ ['a'] ∧
      'a' ∉ passed.map PassedIndex.key ∧
      call.chain.slots = passed.foldr (fun index total => index.slots + total) 0 ∧
      prepared.context = resolved.context ∧
      holdValue resolver value prepared = .ok call.holder held ∧
      t.context.code.text = held.context.code.text ++ (call.render ++ ";" ++ "\n") := by
  obtain ⟨values, resolved, held, run⟩ := appendRun_of_ok h
  obtain ⟨encoded, hencoded, hchain⟩ := run.chain
  obtain ⟨prepared, hprepared, hholder⟩ := run.holder
  have hlength : encoded.length = target.indexes.length :=
    hencoded.length_eq.symm.trans run.answers.length_eq
  have hpassed : List.Forall₂ (Resolved.PassedAs resolved.context) values
      (encoded.map fun index => .ofCode index.1 index.2) :=
    List.forall₂_map_right_iff.mpr (hencoded.imp fun _ _ hindex => hindex.passedAs)
  refine ⟨values, resolved, encoded.map fun index => .ofCode index.1 index.2, prepared, held,
    run.answers, hpassed, ?_, ?_, ?_, ?_, ?_, ?_, ?_, hprepared, hholder, ?_⟩
  · rw [hchain, KeyChain.encodings_ofList, List.length_map, hlength]
  · rw [hchain, KeyChain.arguments_ofList, List.length_map, hlength]
  · rw [hchain, KeyChain.encodings_ofList, List.map_map]
    rfl
  · rw [hchain, KeyChain.arguments_ofList, List.map_map]
    rfl
  · rw [hchain, KeyChain.keys_ofList, List.map_map]
    rfl
  · simpa [PassedIndex.ofCode] using fun encoding code _ => encoding.key_ne_marker
  · rw [hchain, KeyChain.slots_ofList, List.foldr_map]
    rfl
  · rw [run.emitted, Context.code_writeCall]

/-- Answers variables by their names and everything else by a string, and declares a dynamic `k`
before it gives a string. -/
def redeclaringResolver : Resolver Unit
  | .var name span => pure ⟨.var, name, span⟩
  | expr => do
      CompileM.updating fun c =>
        ((), { c with symbols := c.symbols.declare (.declare "k" .dynamic .parameter .synthetic) })
      return ⟨.string, "a", expr.span⟩

/-- The first index is a variable that is declared again when the second is resolved. -/
def redeclaredTarget : Target :=
  { container := .var "list"
    indexes := [.var "k" .synthetic, .literal (.int 1) .synthetic] }

/-- In this context `k` is an integer. -/
def integerContext : Context :=
  .ofSymbols (.make false [] true 0 { zts := false, extraHeaders := [] })
    (.ofList [.declare "list" .array .parameter .synthetic,
      .declare "k" .long .parameter .synthetic])

theorem compileAppend_follows_answers_redeclared :
    ∃ call t values resolved passed,
      compileAppend redeclaringResolver redeclaredTarget (.var "list" .synthetic) .synthetic
        ⟨integerContext, [], ()⟩ = .ok call t ∧
      List.Forall₂ (Resolved.PassedAs resolved) values passed ∧
      passed.map PassedIndex.encoding = [.dynamic, .string] ∧
      call.chain =
        { encodings := [.dynamic, .string], arguments := ["k", "SL(\"a\")"], slots := 3 } ∧
      t.context.code.text =
        "zephir_array_update_multi(&list, &list, SL(\"zsa\"), 3, k, SL(\"a\"));\n" := by
  have hchain : (CompileM.value? (compileAppend redeclaringResolver redeclaredTarget
      (.var "list" .synthetic) .synthetic) ⟨integerContext, [], ()⟩).map RuntimeCall.chain =
        some { encodings := [.dynamic, .string], arguments := ["k", "SL(\"a\")"], slots := 3 } := by
    decide +kernel
  have hcode : (CompileM.contextAfter (compileAppend redeclaringResolver redeclaredTarget
      (.var "list" .synthetic) .synthetic) ⟨integerContext, [], ()⟩).code.text =
        "zephir_array_update_multi(&list, &list, SL(\"zsa\"), 3, k, SL(\"a\"));\n" := by
    decide +kernel
  rcases hrun : compileAppend redeclaringResolver redeclaredTarget (.var "list" .synthetic)
    .synthetic ⟨integerContext, [], ()⟩ with ⟨call, t⟩ | ⟨failure, t⟩
  · obtain ⟨values, resolved, passed, -, -, -, hpassed, -, -, hencodings, -⟩ :=
      compileAppend_follows_answers hrun
    simp only [CompileM.value?, hrun, Option.map_some, Option.some.injEq] at hchain
    simp only [CompileM.contextAfter, hrun] at hcode
    exact ⟨call, t, values, resolved.context, passed, rfl, hpassed,
      hencodings.symm.trans (by rw [hchain]), hchain, hcode⟩
  · simp [CompileM.value?, hrun] at hchain

end AppendLowering
