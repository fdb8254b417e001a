import AppendLowering.Proofs.Compile.Emission
import AppendLowering.Proofs.Compile.Verdict
import AppendLowering.Proofs.Symbol.History

/-!
# Variables are read from left to right

An expression is rejected for the first of its variables that cannot be read at
the point where compilation stops. Temporaries that were declared up to there
can be read under their names, and they are all that sets this point apart from
the start.
-/

namespace AppendLowering

/-- A fresh temporary changes what is found under its own name only. -/
theorem SymbolTable.WellFormed.lookup_freshTemporary {table : SymbolTable} (h : table.WellFormed)
    (type : DataType) (span : Span) {name : String}
    (hname : name ≠ temporaryName table.freeNumber) :
    (table.freshTemporary type span).2.lookup name = table.lookup name := by
  rcases h.lookup_cases name with hnone | ⟨v, hv, -⟩
  · rw [hnone, lookup_freshTemporary_of_ne type span hname hnone]
  · rw [hv, lookup_freshTemporary_of_ne type span hname hv]

namespace Context

variable {c d : Context} {name : String} {cause : Diagnostic.Cause}

theorem settled_of_readable (h : c.unreadable? name = none) : c.Settled name := by
  refine .inl fun hnone => ?_
  simp [unreadable?, hnone] at h

/-- What can be read can be read later on. -/
theorem Grows.readable (h : c.Grows d) (hc : c.Reachable) (hname : c.unreadable? name = none) :
    d.unreadable? name = none := by
  rw [h.unreadable?_eq hc (settled_of_readable hname), hname]

theorem unreadableOf?_eq_none {reads : List (String × Span)} :
    c.unreadableOf? reads = none ↔ ∀ read ∈ reads, c.unreadable? read.1 = none := by
  simp [unreadableOf?, List.findSome?_eq_none_iff]

theorem Grows.readableAll (h : c.Grows d) (hc : c.Reachable) {reads : List (String × Span)}
    (hreads : c.unreadableOf? reads = none) : d.unreadableOf? reads = none := by
  rw [unreadableOf?_eq_none] at hreads ⊢
  exact fun read hread => h.readable hc (hreads read hread)

/-- A variable that cannot be read after a temporary was declared could not be read before. -/
theorem unreadable?_of_freshTemporary (hc : c.symbols.WellFormed) (type : DataType) (span : Span)
    (h : unreadable? { c with symbols := (c.symbols.freshTemporary type span).2 } name =
      some cause) : c.unreadable? name = some cause := by
  by_cases hname : name = SymbolTable.temporaryName c.symbols.freeNumber
  · have hlookup := SymbolTable.lookup_freshTemporary c.symbols type span
    rw [show (c.symbols.freshTemporary type span).1.name = name from hname.symm] at hlookup
    have hreadable : (c.symbols.freshTemporary type span).1.isReadable = true := rfl
    simp [unreadable?, hlookup, hreadable] at h
  · rwa [unreadable?, hc.lookup_freshTemporary type span hname] at h

theorem Grows.unreadable_before (h : c.Grows d) (hc : c.Reachable)
    (hname : d.unreadable? name = some cause) : c.unreadable? name = some cause := by
  induction h with
  | refl => exact hname
  | temporary h type span ih =>
      exact ih (unreadable?_of_freshTemporary (h.reachable hc).wellFormed type span hname)
  | output _ _ ih => exact ih hname
  | header _ _ ih => exact ih hname

/-- What has become readable is a temporary. -/
theorem Grows.readable_before (h : c.Grows d) (hc : c.Reachable)
    (hname : d.unreadable? name = none) :
    c.unreadable? name = none ∨
      c.unreadable? name = some (.undeclaredVariable name) ∧
        ∃ number, name = SymbolTable.temporaryName number := by
  by_cases hsettled : c.Settled name
  · exact .inl (h.unreadable?_eq hc hsettled ▸ hname)
  · simp only [Settled, not_or, not_not, not_forall] at hsettled
    exact .inr ⟨by simp [unreadable?, hsettled.1], hsettled.2⟩

/-- Of the variables that are read from `c` on, the one at the place is the first that cannot be
read. What stands before it has other names, and each of them can be read in `c`, or else it is
undeclared there and the name of a temporary. -/
def FailsAt (c : Context) (reads : List (String × Span)) (cause : Diagnostic.Cause)
    (place : Span) : Prop :=
  ∃ before name after, reads = before ++ (name, place) :: after ∧ c.unreadable? name = some cause ∧
    ∀ earlier ∈ before, earlier.1 ≠ name ∧
      (c.unreadable? earlier.1 = none ∨
        c.unreadable? earlier.1 = some (.undeclaredVariable earlier.1) ∧
          ∃ number, earlier.1 = SymbolTable.temporaryName number)

theorem Grows.failsAt (h : c.Grows d) (hc : c.Reachable) {reads : List (String × Span)}
    {blamed : Diagnostic} (hblamed : d.unreadableOf? reads = some blamed) :
    c.FailsAt reads blamed.cause blamed.span := by
  obtain ⟨before, read, after, hreads, hread, hbefore⟩ := List.findSome?_eq_some_iff.mp hblamed
  obtain ⟨cause, hcause, rfl⟩ := Option.map_eq_some_iff.mp hread
  refine ⟨before, read.1, after, hreads, h.unreadable_before hc hcause, fun earlier hmem => ?_⟩
  have hearlier : d.unreadable? earlier.1 = none := Option.map_eq_none_iff.mp (hbefore earlier hmem)
  refine ⟨fun hsame => ?_, h.readable_before hc hearlier⟩
  rw [hsame, hcause] at hearlier
  cases hearlier

end Context

theorem Expr.settled_of_faultless {c : Context} {index : Expr} {span : Span}
    (h : index.indexFault? c span = none) : index.Settled c := by
  have hreads := Option.map_eq_none_iff.mp (Option.or_eq_none_iff.mp h).1
  exact fun read hread =>
    Context.settled_of_readable (Context.unreadableOf?_eq_none.mp hreads read hread)

open CompileM

namespace CompileM

variable {ρ α β : Type} {s : CompileState ρ} {reads rest : List (String × Span)}

theorem Verdict.eq_none {blamed : Option Diagnostic} {a : α} {t : CompileState ρ}
    (h : Verdict blamed (.ok a t)) : blamed = none := by
  cases blamed with
  | none => rfl
  | some d =>
      obtain ⟨u, heq⟩ := h
      cases heq

theorem Verdict.eq_some {blamed : Option Diagnostic} {d : Diagnostic} {t : CompileState ρ}
    (h : Verdict blamed (.error (.rejected d) t : EStateM.Result Failure (CompileState ρ) α)) :
    blamed = some d := by
  cases blamed with
  | none =>
      obtain ⟨a, u, heq⟩ := h
      cases heq
  | some d =>
      obtain ⟨u, heq⟩ := h
      cases heq
      rfl

/-- The action is rejected for the first of the variables that cannot be read where it stops, and
succeeds if all of them can be read there. -/
def Scans (reads : List (String × Span)) (action : CompileM ρ α) (s : CompileState ρ) : Prop :=
  Verdict ((contextAfter action s).unreadableOf? reads) (action s)

theorem contextAfter_reading (query : Context → Except Failure α) (s : CompileState ρ) :
    contextAfter (reading query : CompileM ρ α) s = s.context := by
  unfold contextAfter reading
  cases query s.context <;> simp only

theorem Scans.of_ok {action : CompileM ρ α} {a : α} {t : CompileState ρ}
    (h : action s = .ok a t) : Scans [] action s :=
  ⟨a, t, h⟩

theorem Scans.after {action : CompileM ρ α} {next : α → CompileM ρ β} {a : α} {t : CompileState ρ}
    (hnext : Scans reads (next a) t) (h : action s = .ok a t) :
    Scans reads (action >>= next) s := by
  have heq : (action >>= next) s = next a t := by simp only [Bind.bind, EStateM.bind, h]
  simpa only [Scans, contextAfter, heq] using hnext

theorem Scans.readable {action : CompileM ρ α} {a : α} {t : CompileState ρ}
    (h : Scans reads action s) (hrun : action s = .ok a t) :
    t.context.unreadableOf? reads = none := by
  simp only [Scans, contextAfter, hrun] at h
  exact h.eq_none

/-- A rejection is for one of the variables. -/
theorem Scans.failsAt {action : CompileM ρ α} {d : Diagnostic} {t : CompileState ρ}
    (h : Scans reads action s) (hs : s.context.Reachable)
    (hadds : OnlyAdds (fun _ => False) action) (hrun : action s = .error (.rejected d) t) :
    s.context.FailsAt reads d.cause d.span := by
  simp only [Scans, contextAfter, hrun] at h
  exact (hadds.grows_error hs hrun).failsAt hs h.eq_some

/-- One action after the other goes through the variables of the first and then of the second. -/
theorem Scans.bind {action : CompileM ρ α} {next : α → CompileM ρ β}
    (hfirst : Scans reads action s) (hs : s.context.Reachable)
    (hadds : OnlyAdds (fun _ => False) action) (hrest : ∀ a, OnlyAdds (fun _ => False) (next a))
    (hnext : ∀ a t, action s = .ok a t → t.context.Reachable →
      t.context.unreadableOf? reads = none → Scans rest (next a) t) :
    Scans (reads ++ rest) (action >>= next) s := by
  cases hrun : action s with
  | ok a t =>
      have hpassed := hfirst.readable hrun
      have hreachable := (hadds.grows_ok hs hrun).reachable hs
      refine Scans.after ?_ hrun
      rw [Scans, Context.unreadableOf?_append,
        ((hrest a).grows t hreachable).readableAll hreachable hpassed, Option.none_or]
      exact hnext a t hrun hreachable hpassed
  | error failure t =>
      have heq : (action >>= next) s = .error failure t := by
        simp only [Bind.bind, EStateM.bind, hrun]
      simp only [Scans, contextAfter, hrun] at hfirst
      simp only [Scans, contextAfter, heq, Context.unreadableOf?_append]
      cases hblamed : t.context.unreadableOf? reads with
      | none => simp [hblamed, Verdict] at hfirst
      | some d => simpa [hblamed, Verdict] using hfirst

/-- What succeeds once the variables have been read can follow. -/
theorem Scans.finish {action : CompileM ρ α} {next : α → CompileM ρ β}
    (hfirst : Scans reads action s) (hs : s.context.Reachable)
    (hadds : OnlyAdds (fun _ => False) action) (hrest : ∀ a, OnlyAdds (fun _ => False) (next a))
    (hnext : ∀ a t, action s = .ok a t → t.context.Reachable →
      t.context.unreadableOf? reads = none → ∃ b u, next a t = .ok b u) :
    Scans reads (action >>= next) s := by
  rw [← List.append_nil reads]
  refine hfirst.bind hs hadds hrest fun a t hrun ht hreads => ?_
  obtain ⟨b, u, hend⟩ := hnext a t hrun ht hreads
  exact .of_ok hend

end CompileM

variable {ρ : Type} {s : CompileState ρ}

theorem readVariable_scans (hs : s.context.Reachable) (name : String) (span : Span) :
    Scans [(name, span)] (CompileM.readVariable name span : CompileM ρ Variable) s := by
  rw [Scans, CompileM.readVariable, contextAfter_reading]
  refine .reading ?_
  cases hcause : s.context.unreadable? name with
  | none =>
      obtain ⟨v, -, -, -, hread⟩ := Context.readVariable_of_readable hs.wellFormed hcause
      simpa [Context.unreadableOf?, hcause] using ⟨v, hread span⟩
  | some cause =>
      simpa [Context.unreadableOf?, hcause] using
        Context.readVariable_of_unreadable hs.wellFormed hcause span

/-- What has been read once can be read again. -/
theorem Expr.Yields.operand_ok {expr : Expr} {value : Resolved} (h : expr.Yields value)
    (hs : s.context.Reachable) (hreads : s.context.unreadableOf? expr.reads = none) :
    ∃ operand, (CompileM.reading value.operand : CompileM ρ Operand) s = .ok operand s := by
  have hsettled : expr.Settled s.context := fun read hread =>
    Context.settled_of_readable (Context.unreadableOf?_eq_none.mp hreads read hread)
  obtain ⟨operand, t, hrun⟩ := h.operand_settles hsettled hreads hs s .refl
  obtain ⟨-, rfl⟩ := reading_ok hrun
  exact ⟨operand, hrun⟩

mutual

theorem Expr.compile_scans (expr : Expr) {s : CompileState ρ} (hs : s.context.Reachable) :
    Scans expr.reads (expr.compile : CompileM ρ Resolved) s := by
  cases expr with
  | literal value span =>
      rw [Expr.compile, Expr.reads]
      exact .of_ok rfl
  | var name span =>
      rw [Expr.compile, Expr.reads]
      exact (readVariable_scans hs name span).finish hs (.reading (.readVariable name span))
        (fun v => (Expr.traceResolved_onlyAdds _ _).bind fun _ => .pure _)
        fun _ _ _ _ _ => ⟨_, _, rfl⟩
  | array items span =>
      rw [Expr.compile, Expr.reads]
      let start := (s.context.initTemporary span).2
      have hstart :
          (start.write (.initArray (s.context.initTemporary span).1 items.length)).Reachable :=
        (Context.Grows.trans (.initTemporary s.context span) (.write start _)).reachable hs
      refine Scans.after (Scans.after ?_ rfl) rfl
      refine Scans.finish (Expr.compileItems_scans _ items hstart) hstart
        (Expr.compileItems_onlyAdds _ items)
        (fun _ => (Expr.traceResolved_onlyAdds _ _).bind fun _ => .pure _)
        fun _ _ _ _ _ => ⟨_, _, rfl⟩

theorem Expr.compileItems_scans (holder : String) (items : List Expr) {s : CompileState ρ}
    (hs : s.context.Reachable) :
    Scans (Expr.readsOfAll items) (Expr.compileItems holder items : CompileM ρ Unit) s := by
  cases items with
  | nil =>
      rw [Expr.compileItems, Expr.readsOfAll]
      exact .of_ok rfl
  | cons item rest =>
      rw [Expr.compileItems, Expr.readsOfAll]
      have hadds (value : Resolved) : OnlyAdds (fun _ => False) (ρ := ρ) (do
          let operand ← CompileM.reading value.operand
          CompileM.write (.push holder operand)
          Expr.compileItems holder rest) :=
        .bind (.reading (.operand value)) fun operand =>
          .bind (.write _) fun _ => Expr.compileItems_onlyAdds holder rest
      refine (Expr.compile_scans item hs).bind hs (Expr.compile_onlyAdds item) hadds ?_
      intro value t hrun ht hreads
      have hyields := Expr.compile_returns item hs s value t .refl hrun
      obtain ⟨operand, hoperand⟩ := hyields.operand_ok ht hreads
      have hwritten := (Context.Grows.write t.context (.push holder operand)).reachable ht
      refine Scans.after (Scans.after ?_ rfl) hoperand
      exact Expr.compileItems_scans holder rest hwritten

end

theorem Resolved.hold_onlyAdds (value : Resolved) :
    OnlyAdds (fun _ => False) (value.hold : CompileM ρ String) :=
  @holdValue_onlyAdds ρ _ (fun _ => pure value) (fun _ => .pure value) default

theorem Resolved.hold_ok {value : Resolved} {operand : Operand}
    (h : (CompileM.reading value.operand : CompileM ρ Operand) s = .ok operand s) :
    ∃ holder t, (value.hold : CompileM ρ String) s = .ok holder t := by
  simp only [Resolved.hold, Bind.bind, EStateM.bind, h]
  cases operand with
  | held name => exact ⟨_, _, rfl⟩
  | immediate immediate =>
      cases htype : value.type == .string <;> exact ⟨_, _, rfl⟩

theorem holdValue_scans (value : Expr) (hs : s.context.Reachable) :
    Scans value.reads (holdValue Expr.compile value : CompileM ρ String) s := by
  refine (Expr.compile_scans value hs).finish hs (Expr.compile_onlyAdds value)
    Resolved.hold_onlyAdds ?_
  intro resolved t hrun ht hreads
  have hyields := Expr.compile_returns value hs s resolved t .refl hrun
  obtain ⟨operand, hoperand⟩ := hyields.operand_ok ht hreads
  exact Resolved.hold_ok hoperand

end AppendLowering
