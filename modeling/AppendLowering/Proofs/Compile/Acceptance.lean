import AppendLowering.Proofs.Compile.Verdict

/-!
# Which appends are accepted

An append is acceptable when the variable of its container is usable, every
index is a key, and every variable of the value, however deep inside array
literals, can be read. Exactly the acceptable appends are compiled.
-/

namespace AppendLowering

/-- The name is declared with a value, and with one of the given types. -/
def Context.Provides (c : Context) (name : String) (types : DataType → Prop) : Prop :=
  ∃ v, c.symbols.lookup name = .ok (some v) ∧ (v.initialized = true ∨ v.storage = .receiver) ∧
    types v.type

/-- Appending can start from the container. -/
def Container.Usable (c : Context) : Container → Prop
  | .var name => c.Provides name fun type => type = .dynamic ∨ type = .array
  | .property object _ => c.Provides object fun type => type = .dynamic
  | .staticProperty .. => True

/-- The expression can be an index. -/
inductive Expr.IsKey (c : Context) : Expr → Prop
  | int (value : Int64) (span : Span) : IsKey c (.literal (.int value) span)
  | uint (value : UInt64) (span : Span) : IsKey c (.literal (.uint value) span)
  | long (value : Int64) (span : Span) : IsKey c (.literal (.long value) span)
  | ulong (value : UInt64) (span : Span) : IsKey c (.literal (.ulong value) span)
  | string (text : String) (span : Span) : IsKey c (.literal (.string text) span)
  | var {name : String} (span : Span)
      (h : c.Provides name (· ∈ [.int, .uint, .long, .ulong, .string, .dynamic])) :
      IsKey c (.var name span)

structure Acceptable (c : Context) (target : Target) (value : Expr) : Prop where
  container : target.container.Usable c
  indexes : ∀ index ∈ target.indexes, index.IsKey c
  value : ∀ read ∈ value.reads, c.Provides read.1 fun _ => True

variable {ρ : Type} {c : Context}

theorem Variable.isReadable_iff (v : Variable) :
    v.isReadable = true ↔ v.initialized = true ∨ v.storage = .receiver := by
  simp [Variable.isReadable]

theorem Variable.encoding?_isSome_iff (v : Variable) :
    v.encoding?.isSome = true ↔ v.type ∈ [.int, .uint, .long, .ulong, .string, .dynamic] := by
  unfold Variable.encoding?
  cases v.type <;> decide

theorem Context.unreadable?_eq_none_iff (name : String) :
    c.unreadable? name = none ↔ c.Provides name fun _ => True := by
  unfold unreadable? Provides
  cases hlookup : c.symbols.lookup name with
  | ok found =>
      cases found with
      | none => simp
      | some v => simp [← Variable.isReadable_iff]
  | error fault => simp

theorem Context.unreadableOf?_eq_none_iff (reads : List (String × Span)) :
    c.unreadableOf? reads = none ↔ ∀ read ∈ reads, c.Provides read.1 fun _ => True := by
  simp [unreadableOf?, List.findSome?_eq_none_iff, unreadable?_eq_none_iff]

/-- A container with a variable fails exactly when the variable lacks a value or a right type. -/
theorem Container.fault?_eq_none_of_base {container : Container} {name : String}
    (hbase : container.base? = some name) (span : Span) :
    container.fault? c span = none ↔ c.Provides name fun type => container.accepts type = true := by
  unfold fault? Context.Provides
  simp only [hbase]
  cases hlookup : c.symbols.lookup name with
  | ok found =>
      cases found with
      | none => simp
      | some v =>
          simp only [Except.ok.injEq, Option.some.injEq, exists_eq_left', ← Variable.isReadable_iff]
          cases v.isReadable <;> cases container.accepts v.type <;> simp
  | error fault => simp

theorem Container.fault?_eq_none_iff (container : Container) (span : Span) :
    container.fault? c span = none ↔ container.Usable c := by
  cases container with
  | var name =>
      rw [fault?_eq_none_of_base rfl]
      simp [Usable, accepts]
  | property object field =>
      rw [fault?_eq_none_of_base rfl]
      simp [Usable, accepts]
  | staticProperty classEntry field => exact ⟨fun _ => True.intro, fun _ => rfl⟩

/-- The two stages of an index let exactly the keys pass. -/
theorem Expr.isKey_iff (index : Expr) (span : Span) :
    index.indexFault? c span = none ∧ index.encodingFault? c span = none ↔ index.IsKey c := by
  constructor
  · rintro ⟨hindex, hencoding⟩
    rw [indexFault?, Option.or_eq_none_iff, Option.map_eq_none_iff,
      Context.unreadableOf?_eq_none_iff] at hindex
    obtain ⟨hreads, htype⟩ := hindex
    cases index with
    | literal value place =>
        cases value with
        | int value => exact .int value place
        | uint value => exact .uint value place
        | long value => exact .long value place
        | ulong value => exact .ulong value place
        | string text => exact .string text place
        | char _ | double _ | bool _ | null => cases htype
    | var name place =>
        obtain ⟨v, hv, hreadable, -⟩ := hreads (name, place) (by simp [reads])
        have htypes : v.encoding?.isSome = true := by
          simpa [encodingFault?, hv, Option.isSome_iff_ne_none] using hencoding
        exact .var place ⟨v, hv, hreadable, (Variable.encoding?_isSome_iff v).1 htypes⟩
    | array items place => cases htype
  · intro hkey
    cases hkey with
    | int | uint | long | ulong | string => exact ⟨rfl, rfl⟩
    | @var name place h =>
        obtain ⟨v, hv, hreadable, htypes⟩ := h
        have hencoding := (Variable.encoding?_isSome_iff v).2 htypes
        have hprovides : c.Provides name fun _ => True := ⟨v, hv, hreadable, True.intro⟩
        have hreads : c.unreadableOf? (Expr.var name place).reads = none := by
          simpa [Context.unreadableOf?_eq_none_iff, reads] using hprovides
        exact ⟨by simp [indexFault?, hreads, type, ResolvedType.isIndex],
          by simp [encodingFault?, hv, hencoding]⟩

theorem Target.blamed?_eq_none_iff (target : Target) (value : Expr) (span : Span) :
    target.blamed? c value span = none ↔ Acceptable c target value := by
  simp only [blamed?, Option.or_eq_none_iff, Option.map_eq_none_iff, List.findSome?_eq_none_iff,
    Container.fault?_eq_none_iff, Context.unreadableOf?_eq_none_iff]
  constructor
  · rintro ⟨hcontainer, hindex, hencoding, hvalue⟩
    have hkeys : ∀ index ∈ target.indexes, index.IsKey c := fun index hmem =>
      (Expr.isKey_iff index span).1 ⟨hindex index hmem, hencoding index hmem⟩
    exact ⟨hcontainer, hkeys, hvalue⟩
  · rintro ⟨hcontainer, hkeys, hvalue⟩
    refine ⟨hcontainer, fun index hmem => ?_, fun index hmem => ?_, hvalue⟩
    · exact ((Expr.isKey_iff index span).2 (hkeys index hmem)).1
    · exact ((Expr.isKey_iff index span).2 (hkeys index hmem)).2

/-- Exactly the acceptable appends are compiled, and the others are rejected with the diagnostic
that is to blame in the starting context. The names that the indexes and the value read must be
declared, or different from those of temporaries. -/
theorem compileAppend_ok_iff_acceptable (target : Target) (value : Expr) (span : Span)
    (s : CompileState ρ) (hs : s.context.Reachable)
    (hindexes : ∀ index ∈ target.indexes, index.Settled s.context)
    (hvalue : value.Settled s.context) :
    ((∃ call t, compileAppend Expr.compile target value span s = .ok call t) ↔
      Acceptable s.context target value) ∧
    (¬ Acceptable s.context target value →
      ∃ d t, target.blamed? s.context value span = some d ∧
        compileAppend Expr.compile target value span s = .error (.rejected d) t) := by
  have hverdict := compileAppend_verdict target value span hs hindexes hvalue
  rw [← Target.blamed?_eq_none_iff target value span]
  cases hblamed : target.blamed? s.context value span with
  | none =>
      rw [hblamed] at hverdict
      exact ⟨⟨fun _ => rfl, fun _ => hverdict⟩, fun h => absurd rfl h⟩
  | some d =>
      rw [hblamed] at hverdict
      obtain ⟨t, hrun⟩ := hverdict
      refine ⟨⟨?_, fun h => by cases h⟩, fun _ => ⟨d, t, rfl, hrun⟩⟩
      rintro ⟨call, u, hok⟩
      rw [hrun] at hok
      cases hok

/-- A context with a dynamic variable `obj` and a Boolean parameter `flag`. -/
def flaggedContext : Context :=
  .ofSymbols (.make true [] false 0 { zts := true, extraHeaders := [] })
    (.ofList [.declare "obj" .dynamic .receiver .synthetic,
      .declare "flag" .bool .parameter .synthetic])

/-- The first index has a wrong type, and the second is not declared. -/
def flaggedTarget : Target :=
  { container := .property "obj" "items"
    indexes := [.var "flag" .synthetic, .var "ghost" .synthetic] }

theorem compileAppend_ok_iff_acceptable_flagged :
    (∃ call t, compileAppend Expr.compile { flaggedTarget with indexes := [.var "obj" .synthetic] }
      (.array [.var "flag" .synthetic] .synthetic) .synthetic ⟨flaggedContext, [], ()⟩ =
        .ok call t) ∧
    ∃ t, compileAppend Expr.compile flaggedTarget (.var "obj" .synthetic) .synthetic
      ⟨flaggedContext, [], ()⟩ =
        .error (.rejected { cause := .undeclaredVariable "ghost", span := .synthetic }) t := by
  have hstart : flaggedContext.Reachable := .start _ _
  have hobj : flaggedContext.Settled "obj" := .inl (by decide +kernel)
  have hflag : flaggedContext.Settled "flag" := .inl (by decide +kernel)
  have hghost : flaggedContext.Settled "ghost" := .inr fun number h => by
    have hhead := congrArg (fun name : String => name.toList.head?) h
    simp [SymbolTable.temporaryName] at hhead
  constructor
  · refine (compileAppend_ok_iff_acceptable _ _ _ ⟨flaggedContext, [], ()⟩ hstart ?_ ?_).1.2 ?_
    · simpa [Expr.Settled, Expr.reads] using hobj
    · simpa [Expr.Settled, Expr.reads, Expr.readsOfAll] using hflag
    · exact (Target.blamed?_eq_none_iff _ _ .synthetic).1 (by decide +kernel)
  · have hblamed : flaggedTarget.blamed? flaggedContext (.var "obj" .synthetic) .synthetic =
        some { cause := .undeclaredVariable "ghost", span := .synthetic } := by decide +kernel
    have hrejected := (compileAppend_ok_iff_acceptable flaggedTarget (.var "obj" .synthetic)
      .synthetic ⟨flaggedContext, [], ()⟩ hstart ?_ ?_).2
    · obtain ⟨d, t, hd, hrun⟩ := hrejected fun h => by
        rw [(Target.blamed?_eq_none_iff _ _ .synthetic).2 h] at hblamed
        cases hblamed
      cases hblamed.symm.trans hd
      exact ⟨t, hrun⟩
    · simp [flaggedTarget, Expr.Settled, Expr.reads, hflag, hghost]
    · simpa [Expr.Settled, Expr.reads] using hobj

end AppendLowering
