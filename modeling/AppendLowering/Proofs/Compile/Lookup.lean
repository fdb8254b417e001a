import AppendLowering.Append.Lowering
import AppendLowering.Proofs.Symbol.Table

/-!
# What the queries of a context answer

On a well-formed table a variable is either found under its own name or
reported as undeclared or without a value. No query ends in a fault.
-/

namespace AppendLowering

namespace Context

variable {c : Context} {name : String}

/-- Why a variable cannot be read, if it cannot. -/
def unreadable? (c : Context) (name : String) : Option Diagnostic.Cause :=
  match c.symbols.lookup name with
  | .ok (some v) => if v.isReadable then none else some (.uninitializedRead name)
  | _ => some (.undeclaredVariable name)

theorem getVariable_of_found {v : Variable} (h : c.symbols.lookup name = .ok (some v))
    (span : Span) : c.getVariable name span = .ok v := by
  simp only [getVariable, h]

theorem getVariable_of_absent (h : c.symbols.lookup name = .ok none) (span : Span) :
    c.getVariable name span = .error (.rejected { cause := .undeclaredVariable name, span }) := by
  simp only [getVariable, h]

theorem readVariable_of_readable (hc : c.symbols.WellFormed) (h : c.unreadable? name = none) :
    ∃ v, c.symbols.lookup name = .ok (some v) ∧ v.name = name ∧ v.isReadable = true ∧
      ∀ span, c.readVariable name span = .ok v := by
  rcases hc.lookup_cases name with hnone | ⟨v, hv, hname⟩
  · simp [unreadable?, hnone] at h
  · have hreadable : v.isReadable = true := by simpa [unreadable?, hv] using h
    refine ⟨v, hv, hname, hreadable, fun span => ?_⟩
    simp only [readVariable, getVariable_of_found hv, bind, Except.bind, hreadable, if_true]
    rfl

theorem readVariable_of_unreadable (hc : c.symbols.WellFormed) {cause : Diagnostic.Cause}
    (h : c.unreadable? name = some cause) (span : Span) :
    c.readVariable name span = .error (.rejected { cause, span }) := by
  rcases hc.lookup_cases name with hnone | ⟨v, hv, -⟩
  · obtain rfl : Diagnostic.Cause.undeclaredVariable name = cause := by
      simpa [unreadable?, hnone] using h
    simp only [readVariable, getVariable_of_absent hnone, bind, Except.bind]
  · obtain ⟨hunreadable, rfl⟩ : v.isReadable = false ∧ .uninitializedRead name = cause := by
      simpa [unreadable?, hv] using h
    simp only [readVariable, getVariable_of_found hv, bind, Except.bind, hunreadable]
    rfl

/-- A variable that is read has been found under its name. -/
theorem lookup_of_readVariable {span : Span} {v : Variable}
    (h : c.readVariable name span = .ok v) :
    c.symbols.lookup name = .ok (some v) ∧ v.isReadable = true := by
  cases hlookup : c.symbols.lookup name with
  | error fault => simp [readVariable, getVariable, hlookup, bind, Except.bind] at h
  | ok found =>
      cases found with
      | none => simp [readVariable, getVariable, hlookup, bind, Except.bind] at h
      | some w =>
          simp only [readVariable, getVariable, hlookup, bind, Except.bind] at h
          split at h
          · next hreadable =>
              cases h
              exact ⟨rfl, hreadable⟩
          · cases h

end Context

/-- The check of a container whose variable is declared. -/
theorem Container.validate_of_found {container : Container} {c : Context} {name : String}
    {v : Variable} (hbase : container.base? = some name)
    (hv : c.symbols.lookup name = .ok (some v)) (span : Span) :
    container.validate span c =
      if v.isReadable then
        if container.accepts v.type then .ok ()
        else .error (.rejected { cause := .invalidTargetType v.name v.type container.use, span })
      else .error (.rejected { cause := .uninitializedTarget v.name, span }) := by
  simp only [validate, hbase, Context.getVariable_of_found hv, bind, Except.bind]
  cases v.isReadable <;> cases container.accepts v.type <;> rfl

theorem Container.validate_of_absent {container : Container} {c : Context} {name : String}
    (hbase : container.base? = some name) (h : c.symbols.lookup name = .ok none) (span : Span) :
    container.validate span c =
      .error (.rejected { cause := .undeclaredVariable name, span }) := by
  simp only [validate, hbase, Context.getVariable_of_absent h, bind, Except.bind]

/-- The query ends in no fault, provided that the table is well formed. -/
def Faultless {α : Type} (query : Context → Except Failure α) : Prop :=
  ∀ c f, c.symbols.WellFormed → query c ≠ .error (.fault f)

namespace Faultless

theorem bind_ne_fault {α β : Type} {first : Except Failure α} {next : α → Except Failure β}
    {f : Fault} (hfirst : first ≠ .error (.fault f)) (hnext : ∀ a, next a ≠ .error (.fault f)) :
    (first >>= next) ≠ .error (.fault f) := by
  cases first with
  | ok a => exact hnext a
  | error failure =>
      intro h
      cases h
      exact hfirst rfl

theorem getVariable (name : String) (span : Span) : Faultless (·.getVariable name span) := by
  intro c f hc h
  change c.getVariable name span = _ at h
  rcases hc.lookup_cases name with hnone | ⟨v, hv, -⟩
  · rw [Context.getVariable_of_absent hnone] at h
    cases h
  · rw [Context.getVariable_of_found hv] at h
    cases h

theorem readVariable (name : String) (span : Span) : Faultless (·.readVariable name span) := by
  intro c f hc
  refine bind_ne_fault (getVariable name span c f hc) fun v h => ?_
  split at h <;> cases h

theorem operand (value : Resolved) : Faultless value.operand := by
  intro c f hc h
  unfold Resolved.operand at h
  split at h <;> try cases h
  have hread : c.readVariable value.code value.span ≠ .error (.fault f) :=
    readVariable _ _ c f hc
  cases hrun : c.readVariable value.code value.span with
  | ok v => simp [hrun, Except.map] at h
  | error failure =>
      rw [hrun] at h hread
      exact hread (by cases h; rfl)

theorem encoding (index : Resolved) (span : Span) : Faultless (index.encoding span) := by
  intro c f hc h
  unfold Resolved.encoding at h
  split at h <;> try cases h
  refine bind_ne_fault (readVariable index.code (index.span.orElse span) c f hc) (fun v hv => ?_) h
  split at hv <;> cases hv

theorem validate (container : Container) (span : Span) : Faultless (container.validate span) := by
  intro c f hc h
  cases hbase : container.base? with
  | none =>
      simp only [Container.validate, hbase] at h
      cases h
  | some name =>
      rcases hc.lookup_cases name with hnone | ⟨v, hv, -⟩
      · rw [Container.validate_of_absent hbase hnone] at h
        cases h
      · rw [Container.validate_of_found hbase hv] at h
        split at h
        · split at h <;> cases h
        · cases h

end Faultless

end AppendLowering
