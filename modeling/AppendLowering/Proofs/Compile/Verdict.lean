import AppendLowering.Proofs.Compile.Results
import AppendLowering.Proofs.Compile.Rollback

/-!
# Which failure is to blame

What an append is rejected for can be read off the context in which it starts,
although compiling it changes the context: temporaries that are declared on
the way do not change what a variable of the source means. The blame falls on
the first failure, where the types of index variables are looked at only after
all indexes have been read.
-/

namespace AppendLowering

namespace CompileM

variable {ρ α β : Type} {c : Context}

/-- A result is the blamed rejection, and a success if there is none. -/
def Verdict : Option Diagnostic → EStateM.Result Failure (CompileState ρ) α → Prop
  | none, result => ∃ a t, result = .ok a t
  | some d, result => ∃ t, result = .error (.rejected d) t

namespace Verdict

variable {action : CompileM ρ α} {next : α → CompileM ρ β} {s : CompileState ρ}
  {blamed later : Option Diagnostic}

/-- What comes later is to blame only if the action succeeds. -/
theorem bind (h : Verdict blamed (action s))
    (hnext : ∀ a t, blamed = none → action s = .ok a t → Verdict later (next a t)) :
    Verdict (blamed.or later) ((action >>= next) s) := by
  cases blamed with
  | none =>
      obtain ⟨a, t, hrun⟩ := h
      have heq : (action >>= next) s = next a t := by
        simp only [Bind.bind, EStateM.bind, hrun]
      rw [heq]
      exact hnext a t rfl hrun
  | some d =>
      obtain ⟨t, hrun⟩ := h
      refine ⟨t, ?_⟩
      simp only [Bind.bind, EStateM.bind, hrun]

theorem reading {query : Context → Except Failure α}
    (h : match blamed with
      | none => ∃ a, query s.context = .ok a
      | some d => query s.context = .error (.rejected d)) :
    Verdict blamed (CompileM.reading query s) := by
  cases blamed with
  | none =>
      obtain ⟨a, ha⟩ := h
      exact ⟨a, s, by simp only [CompileM.reading, ha]⟩
  | some d => exact ⟨s, by simp only [CompileM.reading, h]⟩

theorem withSpan (h : Verdict blamed (action s)) (span : Span) :
    Verdict (blamed.map (·.orSpan span)) (CompileM.withSpan span action s) := by
  cases blamed with
  | none =>
      obtain ⟨a, t, hrun⟩ := h
      exact ⟨a, t, by simp only [CompileM.withSpan, hrun]⟩
  | some d =>
      obtain ⟨t, hrun⟩ := h
      exact ⟨t, by simp only [CompileM.withSpan, hrun]⟩

theorem onRejection (h : Verdict blamed (action s)) (entry : Diagnostic → LogEntry) :
    Verdict blamed (CompileM.onRejection entry action s) := by
  cases blamed with
  | none =>
      obtain ⟨a, t, hrun⟩ := h
      exact ⟨a, t, by simp only [CompileM.onRejection, hrun]⟩
  | some d =>
      obtain ⟨t, hrun⟩ := h
      refine ⟨{ t with log := t.log.record t.context.config (entry d) }, ?_⟩
      simp only [CompileM.onRejection, hrun]

theorem transaction (h : Verdict blamed (action s)) (hadds : OnlyAdds (fun _ => False) action)
    (hs : s.context.Reachable) : Verdict blamed (CompileM.transaction action s) := by
  rw [transaction_eq hadds hs]
  cases blamed with
  | none =>
      obtain ⟨a, t, hrun⟩ := h
      exact ⟨a, t, by simp only [hrun]⟩
  | some d =>
      obtain ⟨t, hrun⟩ := h
      exact ⟨{ t with context := s.context }, by simp only [hrun]⟩

end Verdict

/-- The verdict on an action, the same from every context grown out of `c`. -/
def Settles (c : Context) (blamed : Option Diagnostic) (action : CompileM ρ α) : Prop :=
  c.Reachable → ∀ s, c.Grows s.context → Verdict blamed (action s)

namespace Settles

variable {action : CompileM ρ α} {next : α → CompileM ρ β} {post : α → Prop}
  {blamed later : Option Diagnostic}

theorem pure (a : α) : Settles c none (pure a : CompileM ρ α) :=
  fun _ s _ => ⟨a, s, rfl⟩

theorem reject (cause : Diagnostic.Cause) (span : Span) :
    Settles c (some { cause, span }) (CompileM.reject cause span : CompileM ρ α) :=
  fun _ s _ => ⟨s, rfl⟩

theorem updating (change : Context → α × Context) :
    Settles c none (CompileM.updating change : CompileM ρ α) :=
  fun _ _ _ => ⟨_, _, rfl⟩

theorem record (entry : LogEntry) : Settles c none (CompileM.record entry : CompileM ρ Unit) :=
  fun _ _ _ => ⟨_, _, rfl⟩

theorem bind (hadds : OnlyAdds (fun _ => False) action) (hreturns : Returns c post action)
    (hfirst : Settles c blamed action)
    (hnext : blamed = none → ∀ a, post a → Settles c later (next a)) :
    Settles c (blamed.or later) (action >>= next) := by
  intro hc s hs
  apply (hfirst hc s hs).bind
  intro a t hnone hrun
  have hgrown : c.Grows t.context := hs.trans (hadds.grows_ok (hs.reachable hc) hrun)
  exact hnext hnone a (hreturns hc s a t hs hrun) hc t hgrown

/-- An action that always succeeds leaves the verdict to what follows. -/
theorem andThen (hadds : OnlyAdds (fun _ => False) action) (hreturns : Returns c post action)
    (hfirst : Settles c none action) (hnext : ∀ a, post a → Settles c later (next a)) :
    Settles c later (action >>= next) := by
  simpa only [Option.none_or] using bind hadds hreturns hfirst fun _ => hnext

/-- What always succeeds leaves the verdict to the action before. -/
theorem onlyIf (hadds : OnlyAdds (fun _ => False) action) (hreturns : Returns c post action)
    (hfirst : Settles c blamed action)
    (hnext : blamed = none → ∀ a, post a → Settles c none (next a)) :
    Settles c blamed (action >>= next) := by
  simpa only [Option.or_none] using bind hadds hreturns hfirst hnext

theorem withSpan (h : Settles c blamed action) (span : Span) :
    Settles c (blamed.map (·.orSpan span)) (CompileM.withSpan span action) :=
  fun hc s hs => (h hc s hs).withSpan span

end Settles

end CompileM

mutual

/-- The variables that an expression reads, with their places, from left to right. -/
def Expr.reads : Expr → List (String × Span)
  | .literal .. => []
  | .var name span => [(name, span)]
  | .array items _ => Expr.readsOfAll items

def Expr.readsOfAll : List Expr → List (String × Span)
  | [] => []
  | item :: rest => item.reads ++ Expr.readsOfAll rest

end

namespace Context

variable {c d : Context} {name : String}

/-- The name means a declared variable, or one that no temporary can become. -/
def Settled (c : Context) (name : String) : Prop :=
  c.symbols.lookup name ≠ .ok none ∨ ∀ number, name ≠ SymbolTable.temporaryName number

theorem Grows.lookup_eq (h : c.Grows d) (hc : c.Reachable) (hname : c.Settled name) :
    d.symbols.lookup name = c.symbols.lookup name :=
  h.symbols.lookup_eq hc.wellFormed hname

theorem Grows.unreadable?_eq (h : c.Grows d) (hc : c.Reachable) (hname : c.Settled name) :
    d.unreadable? name = c.unreadable? name := by
  simp only [unreadable?, h.lookup_eq hc hname]

/-- The first of the given variables that cannot be read. -/
def unreadableOf? (c : Context) (reads : List (String × Span)) : Option Diagnostic :=
  reads.findSome? fun read => (c.unreadable? read.1).map fun cause => { cause, span := read.2 }

theorem unreadableOf?_append (c : Context) (reads reads' : List (String × Span)) :
    c.unreadableOf? (reads ++ reads') = (c.unreadableOf? reads).or (c.unreadableOf? reads') :=
  List.findSome?_append

end Context

open CompileM

variable {ρ : Type} {c : Context}

/-- Every variable that the expression reads is settled. -/
def Expr.Settled (c : Context) (expr : Expr) : Prop :=
  ∀ read ∈ expr.reads, c.Settled read.1

/-- Reading a variable twice is no reason to reject it. -/
theorem Expr.Yields.operand_settles {expr : Expr} {value : Resolved} (h : expr.Yields value)
    (hsettled : expr.Settled c)
    (hreadable : c.unreadableOf? expr.reads = none) :
    Settles c none (CompileM.reading value.operand : CompileM ρ Operand) := by
  intro hc s hs
  refine .reading ?_
  cases h with
  | literal literal span => cases literal <;> exact ⟨_, rfl⟩
  | var name span =>
      have hname : s.context.unreadable? name = none := by
        rw [hs.unreadable?_eq hc (hsettled (name, span) (by simp [Expr.reads]))]
        simpa [Context.unreadableOf?, Expr.reads] using hreadable
      obtain ⟨v, -, -, -, hread⟩ :=
        Context.readVariable_of_readable (hs.reachable hc).wellFormed hname
      exact ⟨v.operand, by simp only [Resolved.operand, hread, Except.map]⟩
  | array items span number => exact ⟨_, rfl⟩

theorem readVariable_settles {name : String} (hname : c.Settled name) (span : Span) :
    Settles c ((c.unreadable? name).map fun cause => { cause, span })
      (CompileM.readVariable name span : CompileM ρ Variable) := by
  intro hc s hs
  have hwell : s.context.symbols.WellFormed := (hs.reachable hc).wellFormed
  rw [← hs.unreadable?_eq hc hname]
  refine .reading ?_
  cases hcause : s.context.unreadable? name with
  | none =>
      obtain ⟨v, -, -, -, hread⟩ := Context.readVariable_of_readable hwell hcause
      exact ⟨v, hread span⟩
  | some cause => exact Context.readVariable_of_unreadable hwell hcause span

mutual

theorem Expr.compile_settles (expr : Expr) (hsettled : expr.Settled c) :
    Settles c (c.unreadableOf? expr.reads) (expr.compile : CompileM ρ Resolved) := by
  cases expr with
  | literal value span =>
      rw [Expr.compile]
      exact .andThen (.record _) (.trivial _) (.record _) fun _ _ => .pure _
  | var name span =>
      rw [Expr.compile]
      have hblamed : c.unreadableOf? (Expr.var name span).reads =
          (c.unreadable? name).map fun cause => { cause, span } := by
        cases hcause : c.unreadable? name <;> simp [Context.unreadableOf?, Expr.reads, hcause]
      rw [hblamed]
      apply Settles.onlyIf (.reading (.readVariable name span)) (.trivial _)
        (readVariable_settles (hsettled (name, span) (by simp [Expr.reads])) span)
      intro _ v _
      exact .andThen (.record _) (.trivial _) (.record _) fun _ _ => .pure _
  | array items span =>
      rw [Expr.compile, Expr.reads]
      rw [Expr.Settled, Expr.reads] at hsettled
      apply Settles.andThen (.initTemporary span) (.trivial _) (.updating _)
      intro holder _
      apply Settles.andThen (.write _) (.trivial _) (.updating _)
      intro _ _
      apply Settles.onlyIf (Expr.compileItems_onlyAdds holder items) (.trivial _)
        (Expr.compileItems_settles holder items hsettled)
      intro _ _ _
      exact .andThen (.record _) (.trivial _) (.record _) fun _ _ => .pure _

theorem Expr.compileItems_settles (holder : String) (items : List Expr)
    (hsettled : ∀ read ∈ Expr.readsOfAll items, c.Settled read.1) :
    Settles c (c.unreadableOf? (Expr.readsOfAll items))
      (Expr.compileItems holder items : CompileM ρ Unit) := by
  cases items with
  | nil =>
      rw [Expr.compileItems]
      exact .pure ()
  | cons item rest =>
      rw [Expr.compileItems, Expr.readsOfAll, Context.unreadableOf?_append]
      simp only [Expr.readsOfAll, List.mem_append] at hsettled
      have hitem : item.Settled c := fun read h => hsettled read (.inl h)
      have hrest : ∀ read ∈ Expr.readsOfAll rest, c.Settled read.1 :=
        fun read h => hsettled read (.inr h)
      apply Settles.bind (Expr.compile_onlyAdds item) (Expr.compile_returns item)
        (Expr.compile_settles item hitem)
      intro hreadable value hyields
      apply Settles.andThen (.reading (.operand value)) (.trivial _)
        (hyields.operand_settles hitem hreadable)
      intro operand _
      apply Settles.andThen (.write _) (.trivial _) (.updating _)
      intro _ _
      exact Expr.compileItems_settles holder rest hrest

end

theorem holdValue_settles (value : Expr) (hsettled : value.Settled c) :
    Settles c (c.unreadableOf? value.reads) (holdValue Expr.compile value : CompileM ρ String) := by
  apply Settles.onlyIf (Expr.compile_onlyAdds value) (Expr.compile_returns value)
    (Expr.compile_settles value hsettled)
  intro hreadable resolved hyields
  apply Settles.andThen (.reading (.operand resolved)) (.trivial _)
    (hyields.operand_settles hsettled hreadable)
  intro operand _
  cases operand with
  | held name => exact .pure name
  | immediate immediate =>
      apply Settles.andThen (.initTemporary _) (.trivial _) (.updating _)
      intro holder _
      split
      · exact .andThen (.write _) (.trivial _) (.updating _) fun _ _ => .pure holder
      · apply Settles.andThen (.record _) (.trivial _) (.record _)
        intro _ _
        exact .andThen (.write _) (.trivial _) (.updating _) fun _ _ => .pure holder

/-- The type that an expression compiles to. -/
def Expr.type : Expr → ResolvedType
  | .literal value _ => value.resolve.1
  | .var .. => .var
  | .array .. => .array

theorem Expr.Yields.type_eq {expr : Expr} {value : Resolved} (h : expr.Yields value) :
    value.type = expr.type := by
  cases h <;> rfl

/-- Why an index cannot be compiled: it reads a variable that cannot be read, or it is neither an
integer, nor a string, nor a variable. -/
def Expr.indexFault? (c : Context) (span : Span) (index : Expr) : Option Diagnostic :=
  ((c.unreadableOf? index.reads).map (·.orSpan span)).or
    (if index.type.isIndex then none
      else some { cause := .unsupportedIndex index.display index.type
                  span := index.span.orElse span })

/-- Why a compiled index has no encoding: it is a variable of another type. -/
def Expr.encodingFault? (c : Context) (span : Span) (index : Expr) : Option Diagnostic :=
  match index with
  | .var name place =>
      match c.symbols.lookup name with
      | .ok (some v) =>
          if v.encoding?.isSome then none
          else some { cause := .unsupportedVariableIndex name v.type, span := place.orElse span }
      | _ => none
  | _ => none

/-- Why the variable of a container cannot be used. -/
def Container.fault? (c : Context) (span : Span) (container : Container) : Option Diagnostic :=
  match container.base? with
  | none => none
  | some name =>
      match c.symbols.lookup name with
      | .ok (some v) =>
          if v.isReadable then
            if container.accepts v.type then none
            else some { cause := .invalidTargetType name v.type container.use, span }
          else some { cause := .uninitializedTarget name, span }
      | _ => some { cause := .undeclaredVariable name, span }

/-- What an append is rejected for: the container, or else the leftmost index that cannot be
compiled, or else the leftmost one without an encoding, or else the value. -/
def Target.blamed? (c : Context) (target : Target) (value : Expr) (span : Span) :
    Option Diagnostic :=
  (target.container.fault? c span).or <|
    (target.indexes.findSome? (Expr.indexFault? c span)).or <|
      (target.indexes.findSome? (Expr.encodingFault? c span)).or <|
        (c.unreadableOf? value.reads).map (·.orSpan span)

theorem findSome?_cons_or {α β : Type} (f : α → Option β) (a : α) (rest : List α) :
    (a :: rest).findSome? f = (f a).or (rest.findSome? f) := by
  rw [List.findSome?_cons]
  cases f a <;> rfl

theorem resolveIndexes_settles (span : Span) (indexes : List Expr)
    (hsettled : ∀ index ∈ indexes, index.Settled c) :
    Settles c (indexes.findSome? (Expr.indexFault? c span))
      (resolveIndexes Expr.compile span indexes : CompileM ρ (List Resolved)) := by
  induction indexes with
  | nil => exact .pure []
  | cons index rest ih =>
      rw [List.forall_mem_cons] at hsettled
      rw [findSome?_cons_or, Expr.indexFault?, Option.or_assoc]
      apply Settles.bind ((Expr.compile_onlyAdds index).withSpan span)
        ((Expr.compile_returns index).withSpan span)
        ((Expr.compile_settles index hsettled.1).withSpan span)
      intro _ value hyields
      rw [← hyields.type_eq]
      by_cases hindex : value.type.isIndex = true
      · rw [if_pos hindex, if_pos hindex, Option.none_or]
        exact .onlyIf (resolveIndexes_onlyAdds Expr.compile_onlyAdds span rest) (.trivial _)
          (ih hsettled.2) fun _ _ _ => .pure _
      · rw [if_neg hindex, if_neg hindex, Option.some_or]
        exact .reject _ _

/-- Once an index has been compiled, its encoding can fail only for the type of a variable. -/
theorem Expr.YieldsIndex.encoding_settles {index : Expr} {value : Resolved}
    (h : index.YieldsIndex value) (span : Span)
    (hsettled : index.Settled c)
    (hfault : index.indexFault? c span = none) :
    Settles c (index.encodingFault? c span)
      (CompileM.reading (value.encoding span) : CompileM ρ Encoding) := by
  obtain ⟨hyields, hindex⟩ := h
  intro hc s hs
  refine .reading ?_
  cases hyields with
  | literal literal place =>
      cases literal with
      | int _ | uint _ | long _ | ulong _ | string _ => exact ⟨_, rfl⟩
      | char _ | double _ | bool _ | null => cases hindex
  | var name place =>
      have hname : c.Settled name := hsettled (name, place) (by simp [Expr.reads])
      have hreadable : s.context.unreadable? name = none := by
        rw [hs.unreadable?_eq hc hname]
        simpa [Expr.indexFault?, Context.unreadableOf?, Expr.reads] using
          (Option.or_eq_none_iff.1 hfault).1
      obtain ⟨v, hv, hvname, -, hread⟩ :=
        Context.readVariable_of_readable (hs.reachable hc).wellFormed hreadable
      rw [hs.lookup_eq hc hname] at hv
      simp only [Expr.encodingFault?, hv, Resolved.encoding, hread, bind, Except.bind]
      cases v.encoding? with
      | none => simp [hvname, throw, throwThe, MonadExceptOf.throw]
      | some encoding => exact ⟨encoding, rfl⟩
  | array items place number => cases hindex

theorem Expr.YieldsIndex.classify_settles {index : Expr} {value : Resolved}
    (h : index.YieldsIndex value) (span : Span) (hsettled : index.Settled c)
    (hfault : index.indexFault? c span = none) :
    Settles c (index.encodingFault? c span) (classifyIndex span value : CompileM ρ Encoding) := by
  apply Settles.onlyIf (.reading (.encoding value span)) (.trivial _)
    (h.encoding_settles span hsettled hfault)
  intro _ encoding _
  exact .andThen (.record _) (.trivial _) (.record _) fun _ _ => .pure encoding

theorem classifyIndexes_settles (span : Span) (chain : KeyChain) {indexes : List Expr}
    {values : List Resolved} (h : List.Forall₂ Expr.YieldsIndex indexes values)
    (hsettled : ∀ index ∈ indexes, index.Settled c)
    (hfault : indexes.findSome? (Expr.indexFault? c span) = none) :
    Settles c (indexes.findSome? (Expr.encodingFault? c span))
      (classifyIndexes span chain values : CompileM ρ KeyChain) := by
  induction h generalizing chain with
  | nil => exact .pure chain
  | @cons index value rest values hvalue _ ih =>
      rw [List.forall_mem_cons] at hsettled
      rw [findSome?_cons_or, Option.or_eq_none_iff] at hfault
      rw [findSome?_cons_or]
      apply Settles.bind (classifyIndex_onlyAdds span value) (.trivial _)
        (hvalue.classify_settles span hsettled.1 hfault.1)
      intro _ encoding _
      exact ih _ hsettled.2 hfault.2

theorem Container.validate_verdict (container : Container) (span : Span) {s : CompileState ρ}
    (hs : s.context.symbols.WellFormed) :
    Verdict (container.fault? s.context span) (CompileM.reading (container.validate span) s) := by
  refine .reading ?_
  unfold Container.fault?
  cases hbase : container.base? with
  | none => exact ⟨(), by simp only [Container.validate, hbase]; rfl⟩
  | some name =>
      rcases hs.lookup_cases name with hnone | ⟨v, hv, hname⟩
      · simp only [hnone]
        exact Container.validate_of_absent hbase hnone span
      · simp only [hv, Container.validate_of_found hbase hv, hname]
        cases v.isReadable <;> cases container.accepts v.type <;> simp

theorem lowerAppend_verdict (target : Target) (value : Expr) (span : Span) {s : CompileState ρ}
    (hs : s.context.Reachable)
    (hindexes : ∀ index ∈ target.indexes, index.Settled s.context)
    (hvalue : value.Settled s.context) :
    Verdict (target.blamed? s.context value span)
      (lowerAppend Expr.compile target value span s) := by
  refine .bind (Container.validate_verdict target.container span hs.wellFormed) ?_
  intro _ t _ hrun
  -- The check of the container is made in the starting context and does not change it.
  obtain rfl : s = t := by
    unfold CompileM.reading at hrun
    split at hrun <;> cases hrun
    rfl
  refine (?_ : Settles s.context _ _) hs s .refl
  apply Settles.andThen (traceStage_onlyAdds _ _) (.trivial _) (.record _)
  intro _ _
  apply Settles.bind (resolveIndexes_onlyAdds Expr.compile_onlyAdds span target.indexes)
    (resolveIndexes_returns span target.indexes)
    (resolveIndexes_settles span target.indexes hindexes)
  intro hfault values hvalues
  apply Settles.andThen (traceStage_onlyAdds _ _) (.trivial _) (.record _)
  intro _ _
  apply Settles.bind (classifyIndexes_onlyAdds span .empty values) (.trivial _)
    (classifyIndexes_settles span .empty hvalues hindexes hfault)
  intro _ chain _
  apply Settles.andThen (traceStage_onlyAdds _ _) (.trivial _) (.record _)
  intro _ _
  apply Settles.onlyIf ((holdValue_onlyAdds Expr.compile_onlyAdds value).withSpan span) (.trivial _)
    ((holdValue_settles value hvalue).withSpan span)
  intro _ holder _
  apply Settles.andThen (traceStage_onlyAdds _ _) (.trivial _) (.record _)
  intro _ _
  apply Settles.andThen (.updating fun d => .writeCall d _) (.trivial _) (.updating _)
  intro call _
  exact .andThen (traceStage_onlyAdds _ _) (.trivial _) (.record _) fun _ _ => .pure call

theorem compileAppend_verdict (target : Target) (value : Expr) (span : Span) {s : CompileState ρ}
    (hs : s.context.Reachable)
    (hindexes : ∀ index ∈ target.indexes, index.Settled s.context)
    (hvalue : value.Settled s.context) :
    Verdict (target.blamed? s.context value span)
      (compileAppend Expr.compile target value span s) :=
  ((lowerAppend_verdict target value span hs hindexes hvalue).onRejection _).transaction
    ((lowerAppend_onlyAdds Expr.compile_onlyAdds target value span).onRejection _) hs

end AppendLowering
